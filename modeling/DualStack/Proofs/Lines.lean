/-
A source that is put together from lines.

A line break separates tokens, so a line with a break behind it is scanned as it
is on its own.  The one exception is a text literal that is never closed: it runs
on into the next line.  Where every literal of a line is closed, the tokens of the
line and of what follows it are the tokens of both together, those of the second
moved by the bytes in front of them (`scan_line`).

The parser looks one token ahead after `var` and `:`, and a line that parses on
its own does not end in one of those, nor inside a construct.  So after such a line
the parser is where it was at the start, except for the nodes it has collected and
the offsets it has seen: `Parser.relocate` is that difference, and no step of the
parser depends on it.  Both extend to any number of lines by induction.
-/
import DualStack.Proofs.Grammar
import DualStack.Proofs.Quoting
import DualStack.Proofs.Scanning
import Mathlib.Data.List.Forall2

namespace DualStack

/-! ### Scanning in front of a separator -/

/-- The scanner goes from character to character: past a separator, or past a token. -/
theorem Cursor.scan_induction {motive : Nat → List Char → Prop}
    (nil : ∀ offset, motive offset [])
    (separator : ∀ offset c cs, Text.isSeparator c = true →
      motive (offset + Text.width [c]) cs → motive offset (c :: cs))
    (token : ∀ offset c cs, Text.isSeparator c = false →
      motive (offset + Text.width (Lexeme.read c cs).span) (Lexeme.read c cs).rest →
        motive offset (c :: cs)) :
    ∀ offset cs, motive offset cs := by
  have hall : ∀ size offset cs, cs.length ≤ size → motive offset cs := by
    intro size
    induction size with
    | zero =>
        intro offset cs hsize
        rw [List.eq_nil_of_length_eq_zero (Nat.le_zero.mp hsize)]
        exact nil offset
    | succ size ih =>
        intro offset cs hsize
        cases cs with
        | nil => exact nil offset
        | cons c cs =>
            by_cases hc : Text.isSeparator c = true
            · exact separator offset c cs hc (ih _ _ (Nat.le_of_succ_le_succ hsize))
            · have hshort := Lexeme.length_rest_lt c cs
              exact token offset c cs (by simpa using hc) (ih _ _ (by omega))
  intro offset cs
  exact hall cs.length offset cs (Nat.le_refl _)

/-- The token at a later place. -/
def Token.shift (d : Nat) (t : Token) : Token :=
  { t with offset := t.offset + d }

namespace Cursor

/-- Where a source starts does not matter but for the offsets. -/
theorem tokens_shift (d : Nat) : ∀ (offset : Nat) (cs : List Char),
    tokens ⟨offset + d, cs⟩ = (tokens ⟨offset, cs⟩).map (Token.shift d) := by
  refine scan_induction ?_ ?_ ?_
  · intro offset
    rw [tokens_nil, tokens_nil, List.map_nil]
  · intro offset c cs hc ih
    rw [tokens_separator hc, tokens_separator hc, ← ih, Nat.add_right_comm]
  · intro offset c cs hc ih
    rw [tokens_cons hc, tokens_cons hc, List.map_cons, ← ih, Nat.add_right_comm]
    rfl

end Cursor

section Runs

variable {p : Char → Bool} {cs rest : List Char}

/-- A run that what follows cannot prolong. -/
theorem takeWhile_append_stop (hrest : ∀ c ∈ rest.head?, p c = false) :
    (cs ++ rest).takeWhile p = cs.takeWhile p := by
  induction cs with
  | nil => exact takeWhile_run (by simp) hrest
  | cons c cs ih =>
      by_cases hc : p c = true
      · rw [List.cons_append, List.takeWhile_cons_of_pos hc, List.takeWhile_cons_of_pos hc, ih]
      · rw [List.cons_append, List.takeWhile_cons_of_neg hc, List.takeWhile_cons_of_neg hc]

theorem dropWhile_append_stop (hrest : ∀ c ∈ rest.head?, p c = false) :
    (cs ++ rest).dropWhile p = cs.dropWhile p ++ rest := by
  induction cs with
  | nil => exact dropWhile_run (by simp) hrest
  | cons c cs ih =>
      by_cases hc : p c = true
      · rw [List.cons_append, List.dropWhile_cons_of_pos hc, List.dropWhile_cons_of_pos hc, ih]
      · rw [List.cons_append, List.dropWhile_cons_of_neg hc, List.dropWhile_cons_of_neg hc,
          List.cons_append]

end Runs

/-- A literal that is closed ends where it ends whatever follows. -/
theorem splitQuoted_append_closed {cs : List Char} (rest : List Char)
    (h : (splitQuoted cs).2 ≠ []) :
    splitQuoted (cs ++ rest) = ((splitQuoted cs).1, (splitQuoted cs).2 ++ rest) := by
  fun_induction splitQuoted cs with
  | case1 => exact absurd rfl h
  | case2 cs => rfl
  | case3 c cs body tail hsplit ih =>
      rw [hsplit] at ih
      rw [List.cons_append, List.cons_append, Text.splitQuoted_backslash, ih h]
  | case4 c cs hquote hslash body tail hsplit ih =>
      have hplain : Text.Plain c := by
        refine ⟨hquote, fun hc => ?_⟩
        -- A backslash in this case is the last character, and nothing follows it.
        cases cs with
        | nil =>
            cases hsplit
            exact h rfl
        | cons d cs => exact hslash d cs hc rfl
      rw [hsplit] at ih
      rw [List.cons_append, Text.splitQuoted_cons hplain, ih h]

namespace Lexeme

variable {c : Char} {cs rest : List Char}

theorem quoted_append (h : (splitQuoted cs).2 ≠ []) :
    quoted (cs ++ rest) = { quoted cs with rest := (quoted cs).rest ++ rest } := by
  have happend := splitQuoted_append_closed rest h
  cases hsplit : splitQuoted cs with
  | mk body tail =>
      rw [hsplit] at h happend
      cases tail with
      | nil => exact absurd rfl h
      | cons d tail =>
          unfold quoted
          rw [happend, hsplit]
          rfl

theorem numeric_append (hrest : Separated rest) :
    numeric c (cs ++ rest) = { numeric c cs with rest := (numeric c cs).rest ++ rest } := by
  have hstop : ∀ d ∈ rest.head?, isNumeric d = false := fun d hd =>
    Spells.isNumeric_of_isSeparator (hrest d hd)
  unfold numeric
  rw [takeWhile_append_stop hstop, dropWhile_append_stop hstop]

theorem word_append (hrest : Separated rest) :
    word c (cs ++ rest) = { word c cs with rest := (word c cs).rest ++ rest } := by
  have hstop : ∀ d ∈ rest.head?, (!Text.isSeparator d) = false := by
    intro d hd
    rw [hrest d hd]
    rfl
  unfold word
  rw [takeWhile_append_stop hstop, dropWhile_append_stop hstop]

/-- **A token that ends before a separator is the same whatever follows**, provided that a text
literal is closed. -/
theorem read_append (hclosed : c = '"' → (splitQuoted cs).2 ≠ []) (hrest : Separated rest) :
    read c (cs ++ rest) = { read c cs with rest := (read c cs).rest ++ rest } := by
  unfold read
  cases TokenKind.ofPunctuation? c with
  | some kind => rfl
  | none =>
      dsimp only
      by_cases hquote : c = '"'
      · simp only [if_pos hquote]
        exact quoted_append (hclosed hquote)
      · simp only [if_neg hquote]
        by_cases hnumber : startsNumber c = true
        · simp only [if_pos hnumber]
          exact numeric_append hrest
        · simp only [if_neg hnumber]
          exact word_append hrest

end Lexeme

/-- Every text literal of a source is closed: its raw text ends before the source does, and
what stands there can only be the closing quote. -/
def QuotesClosed (source : String) : Prop :=
  ∀ t ∈ Token.scan source, t.kind = .text →
    t.offset + 1 + (Text.bytes t.lexeme).length < (Text.bytes source).length

instance (source : String) : Decidable (QuotesClosed source) :=
  inferInstanceAs (Decidable (∀ t ∈ Token.scan source, _))

namespace Cursor

/-- The same from a place on. -/
def Closed (k : Cursor) : Prop :=
  ∀ t ∈ k.tokens, t.kind = .text →
    t.offset + 1 + (Text.bytes t.lexeme).length < k.offset + Text.width k.rest

variable {offset : Nat} {c : Char} {cs rest : List Char}

theorem closed_ofSource {source : String} (h : QuotesClosed source) :
    Closed ⟨0, source.toList⟩ := by
  intro t ht hkind
  rw [← Text.length_bytes, Nat.zero_add]
  exact h t ht hkind

theorem Closed.of_separator (hc : Text.isSeparator c = true) (h : Closed ⟨offset, c :: cs⟩) :
    Closed ⟨offset + Text.width [c], cs⟩ := by
  intro t ht hkind
  rw [← tokens_separator hc] at ht
  have hend := h t ht hkind
  simp only [Text.width_cons, Text.width_nil] at hend ⊢
  omega

theorem Closed.of_token (hc : Text.isSeparator c = false) (h : Closed ⟨offset, c :: cs⟩) :
    Closed ⟨offset + Text.width (Lexeme.read c cs).span, (Lexeme.read c cs).rest⟩ := by
  intro t ht hkind
  have hmem : t ∈ tokens ⟨offset, c :: cs⟩ := by
    rw [tokens_cons hc]
    exact List.mem_cons_of_mem _ ht
  have hend := h t hmem hkind
  have hwhole := congrArg Text.width (Lexeme.split_eq c cs)
  rw [Text.width_append] at hwhole
  dsimp only at hend ⊢
  omega

/-- The literal at the front has its closing quote. -/
theorem Closed.front (h : Closed ⟨offset, '"' :: cs⟩) : (splitQuoted cs).2 ≠ [] := by
  intro hopen
  have hmem : (⟨.text, String.ofList (splitQuoted cs).1, offset⟩ : Token)
      ∈ tokens ⟨offset, '"' :: cs⟩ := by
    rw [tokens_cons (by decide)]
    exact List.mem_cons_self ..
  have hend := h _ hmem rfl
  have hwhole := congrArg Text.width (splitQuoted_append cs)
  have hquote : Text.width ('"' :: cs) = 1 + Text.width cs := rfl
  rw [hopen, List.append_nil] at hwhole
  rw [Text.length_bytes, String.toList_ofList, hquote, hwhole] at hend
  dsimp only at hend
  omega

/-- **What precedes a separator is scanned as if nothing followed**, and what follows as if
nothing preceded. -/
theorem tokens_append (hrest : Separated rest) : ∀ (offset : Nat) (cs : List Char),
    Closed ⟨offset, cs⟩ → tokens ⟨offset, cs ++ rest⟩ =
      tokens ⟨offset, cs⟩ ++ tokens ⟨offset + Text.width cs, rest⟩ := by
  refine scan_induction ?_ ?_ ?_
  · intro offset _
    rw [tokens_nil]
    rfl
  · intro offset c cs hc ih hclosed
    rw [List.cons_append, tokens_separator hc, tokens_separator hc, ih (hclosed.of_separator hc),
      Text.width_cons c cs, Text.width_cons c [], Text.width_nil, Nat.add_zero, Nat.add_assoc]
  · intro offset c cs hc ih hclosed
    have hread : Lexeme.read c (cs ++ rest) =
        { Lexeme.read c cs with rest := (Lexeme.read c cs).rest ++ rest } := by
      refine Lexeme.read_append ?_ hrest
      rintro rfl
      exact hclosed.front
    have hwhole := congrArg Text.width (Lexeme.split_eq c cs)
    rw [Text.width_append] at hwhole
    rw [List.cons_append, tokens_cons hc, tokens_cons hc, hread, List.cons_append,
      ih (hclosed.of_token hc), Nat.add_assoc, hwhole]

end Cursor

/-- The tokens of a line and of what follows it. -/
theorem scan_line {line : String} (h : QuotesClosed line) (rest : String) :
    Token.scan (line ++ "\n" ++ rest) =
      Token.scan line ++ (Token.scan rest).map (Token.shift ((Text.bytes line).length + 1)) := by
  have hbreak : Text.isSeparator '\n' = true := by decide
  have htext : (line ++ "\n" ++ rest).toList = line.toList ++ '\n' :: rest.toList := by
    simp
  unfold Token.scan Cursor.ofSource
  rw [htext, Cursor.tokens_append (separated_cons hbreak _) 0 line.toList
    (Cursor.closed_ofSource h), Cursor.tokens_separator hbreak, ← Cursor.tokens_shift,
    Text.length_bytes, Nat.add_assoc]
  rfl

/-! ### Parsing behind finished nodes -/

/-- The error at a later place. -/
def ParseError.shift (d : Nat) (e : ParseError) : ParseError :=
  { e with offset := e.offset + d }

namespace Parser

variable {front : List Node} {d : Nat} {p : Parser}

/-- The parser with nodes that were finished before all others, and all tokens at a later
place. -/
def relocate (front : List Node) (d : Nat) (p : Parser) : Parser :=
  ⟨p.forest ++ front.reverse, p.scopes.map fun s => { s with offset := s.offset + d }⟩

theorem relocate_insert (n : Node) :
    (p.relocate front d).insert n = (p.insert n).relocate front d := by
  obtain ⟨forest, scopes⟩ := p
  cases scopes <;> rfl

theorem relocate_surface (n : Node) :
    (p.relocate front d).surface n = (p.surface n).relocate front d := by
  obtain ⟨forest, scopes⟩ := p
  cases n with
  | definition name body => cases scopes <;> rfl
  | _ => rfl

theorem close_cons (t : Token) (k : Construct) (forest : List Node) (s : OpenScope)
    (outer : List OpenScope) :
    close t k ⟨forest, s :: outer⟩ =
      if s.scope.construct = k then
        .ok (insert s.scope.toNode (surface s.scope.toNode ⟨forest, outer⟩))
      else .error ⟨t.offset, .mismatchedClose t.lexeme s.scope.construct⟩ := rfl

theorem relocate_close (t : Token) (k : Construct) :
    (p.relocate front d).close (t.shift d) k =
      ((p.close t k).map (relocate front d)).mapError (ParseError.shift d) := by
  obtain ⟨forest, scopes⟩ := p
  cases scopes with
  | nil => rfl
  | cons s outer =>
      show close _ _ ⟨forest ++ front.reverse, { s with offset := s.offset + d } :: _⟩ = _
      rw [close_cons, close_cons]
      by_cases hmatch : s.scope.construct = k
      · rw [if_pos hmatch, if_pos hmatch]
        have hnode (n : Node) : insert n (surface n (relocate front d ⟨forest, outer⟩)) =
            relocate front d (insert n (surface n ⟨forest, outer⟩)) := by
          rw [relocate_surface, relocate_insert]
        exact congrArg Except.ok (hnode s.scope.toNode)
      · rw [if_neg hmatch, if_neg hmatch]
        rfl

theorem relocate_switch (t : Token) :
    (p.relocate front d).switch (t.shift d) =
      ((p.switch t).map (relocate front d)).mapError (ParseError.shift d) := by
  obtain ⟨forest, scopes⟩ := p
  cases scopes with
  | nil => rfl
  | cons s outer =>
      obtain ⟨scope, offset⟩ := s
      cases scope <;> rfl

theorem relocate_finish : (p.relocate front d).finish =
    (p.finish.map (front ++ ·)).mapError (ParseError.shift d) := by
  obtain ⟨forest, scopes⟩ := p
  cases scopes with
  | nil =>
      have hforest : (forest ++ front.reverse).reverse = front ++ forest.reverse := by simp
      exact congrArg Except.ok hforest
  | cons s outer => rfl

/-- No step depends on what was finished before, or on where the tokens are. -/
theorem relocate_step (t : Token) : (p.relocate front d).step (t.shift d) =
    ((p.step t).map (relocate front d)).mapError (ParseError.shift d) := by
  unfold step
  have hkind : (t.shift d).kind = t.kind := rfl
  rw [hkind]
  cases t.kind with
  | number | text | word => exact congrArg Except.ok (relocate_insert _)
  | elseKeyword => exact relocate_switch t
  | semicolon | thenKeyword | endKeyword | rightBracket | rightBrace => exact relocate_close t _
  | _ => rfl

/-- **Behind finished nodes the parser does what it does at the start.** -/
theorem relocate_run (p : Parser) (ts : List Token) :
    (p.relocate front d).run (ts.map (Token.shift d)) =
      ((p.run ts).map (front ++ ·)).mapError (ParseError.shift d) := by
  fun_induction run p ts with
  | case1 p => exact relocate_finish
  | case2 p t ts ht =>
      have hend : (t.shift d).kind = .eof := ht
      exact (run_end hend).trans relocate_finish
  | case3 p t name offset ts ht ih =>
      have hdeclares : (t.shift d).kind = .varKeyword := ht
      rw [← ih, ← relocate_insert]
      exact run_declaration hdeclares rfl
  | case4 p t name offset ts ht ih =>
      have hdefines : (t.shift d).kind = .colon := ht
      rw [← ih]
      exact run_definition hdefines rfl
  | case5 p t ts q hstep hend _ _ ih =>
      have hplain := not_naming_of_step hstep
      have hend' : (t.shift d).kind ≠ .eof := hend
      rw [← ih, List.map_cons, run_unnamed hend' fun ht => absurd ht hplain, relocate_step, hstep]
      rfl
  | case6 p t ts err hstep hend hvar hcolon =>
      have hend' : (t.shift d).kind ≠ .eof := hend
      rw [List.map_cons, run_unnamed hend' ?_, relocate_step, hstep]
      · rfl
      · intro ht name hname
        rw [List.head?_map, Option.mem_def, Option.map_eq_some_iff] at hname
        obtain ⟨first, hfirst, rfl⟩ := hname
        exact unnamed_of_cases hvar hcolon ht first hfirst

end Parser

/-- The forest of tokens that parse on their own, and of others behind them. -/
theorem parseTokens_append {us ts : List Token} {forest : List Node} (d : Nat)
    (hend : ∀ t ∈ us, t.kind ≠ .eof) (h : parseTokens us = .ok forest) :
    parseTokens (us ++ ts.map (Token.shift d)) =
      ((parseTokens ts).map (forest ++ ·)).mapError (ParseError.shift d) := by
  obtain ⟨ns, hitems, rfl⟩ := items_of_parseTokens hend h
  have hfront : Parser.start.feed ns = Parser.start.relocate (Node.surfaced ns) d := by
    rw [Parser.start, Parser.feed_top]
    simp [Parser.relocate]
  unfold parseTokens
  rw [Parser.run_items hitems, hfront, Parser.relocate_run]

/-- The forest of a line and of what follows it. -/
theorem parse_line {line : String} {forest : List Node} (hclosed : QuotesClosed line)
    (h : parse line = .ok forest) (rest : String) :
    parse (line ++ "\n" ++ rest) =
      ((parse rest).map (forest ++ ·)).mapError
        (ParseError.shift ((Text.bytes line).length + 1)) := by
  unfold parse
  rw [scan_line hclosed]
  exact parseTokens_append _ (fun t ht => (of_mem_scan ht).1) h

/-! ### Any number of lines -/

/-- The tokens of lines that follow one another from an offset on, with a break behind each. -/
def lineTokens : Nat → List String → List Token
  | _, [] => []
  | offset, line :: lines =>
    (Token.scan line).map (Token.shift offset) ++
      lineTokens (offset + (Text.bytes line).length + 1) lines

/-- How many bytes some lines take, with a break behind each. -/
def lineBytes : List String → Nat
  | [] => 0
  | line :: lines => lineBytes lines + ((Text.bytes line).length + 1)

theorem scan_empty : Token.scan "" = [] :=
  Cursor.tokens_nil 0

theorem Token.shift_shift (d e : Nat) : Token.shift d ∘ Token.shift e = Token.shift (d + e) := by
  funext t
  simp only [Function.comp_apply, shift, Token.mk.injEq, true_and]
  omega

theorem shift_scan_lines : ∀ {lines : List String}, (∀ line ∈ lines, QuotesClosed line) →
    ∀ offset : Nat, (Token.scan ("\n".intercalate lines)).map (Token.shift offset) =
      lineTokens offset lines := by
  intro lines
  induction lines with
  | nil =>
      intro _ offset
      rw [String.intercalate_nil, scan_empty]
      rfl
  | cons line lines ih =>
      intro hclosed offset
      cases lines with
      | nil =>
          rw [String.intercalate_singleton, lineTokens, lineTokens, List.append_nil]
      | cons next lines =>
          have hline := hclosed line (List.mem_cons_self ..)
          have hrest := ih fun l hl => hclosed l (List.mem_cons_of_mem _ hl)
          rw [String.intercalate_cons_cons, scan_line hline, List.map_append, List.map_map,
            Token.shift_shift, lineTokens, ← hrest, Nat.add_assoc]

theorem scan_lines {lines : List String} (hclosed : ∀ line ∈ lines, QuotesClosed line) :
    Token.scan ("\n".intercalate lines) = lineTokens 0 lines := by
  have hzero : Token.shift 0 = id := rfl
  rw [← shift_scan_lines hclosed 0, hzero, List.map_id]

theorem parse_lines {lines : List String} {forests : List (List Node)}
    (hparse : List.Forall₂ (fun line forest => parse line = .ok forest) lines forests)
    (hclosed : ∀ line ∈ lines, QuotesClosed line) :
    parse ("\n".intercalate lines) = .ok forests.flatten := by
  induction hparse with
  | nil =>
      rw [String.intercalate_nil, parse, scan_empty]
      rfl
  | @cons line forest lines forests hline hrest ih =>
      cases hrest with
      | nil => rw [String.intercalate_singleton, hline, List.flatten_singleton]
      | cons =>
          rw [String.intercalate_cons_cons, parse_line (hclosed line (List.mem_cons_self ..)) hline,
            ih fun l hl => hclosed l (List.mem_cons_of_mem _ hl)]
          rfl

/-- An error behind lines that parse is the error of its own line, at a later place. -/
theorem parse_lines_error {lines : List String} {forests : List (List Node)}
    (hparse : List.Forall₂ (fun line forest => parse line = .ok forest) lines forests)
    (hclosed : ∀ line ∈ lines, QuotesClosed line) {last : String} {error : ParseError}
    (hlast : parse last = .error error) :
    parse ("\n".intercalate (lines ++ [last])) = .error (error.shift (lineBytes lines)) := by
  induction hparse with
  | nil => exact hlast
  | @cons line forest lines forests hline _ ih =>
      rw [List.cons_append, String.intercalate_cons_of_ne_nil (by simp),
        parse_line (hclosed line (List.mem_cons_self ..)) hline,
        ih fun l hl => hclosed l (List.mem_cons_of_mem _ hl), lineBytes]
      simp only [Except.map, Except.mapError, ParseError.shift, Nat.add_assoc]

end DualStack
