/-
Cleaning a line of the blanks at its ends.

The prompt takes every blank of Unicode off the ends of a line, while only four of
them separate tokens.  Any other blank is part of a word, so a line keeps its tokens
exactly if nothing but separators was taken off.

That separators at the ends can go is the scanner's own doing: it skips them in
front of a token, and behind one they end it where the source would.  A text literal
is the one token they do not end, so it has to be closed, and no separator closes it.

That nothing else can go is seen from the sites of the tokens.  Some token of the
line spans the character, and it has its match in the cleaned line, at the same
place and with the same lexeme.  It starts no earlier, so the character did not
stand in front of it; and it spans as much, so the character did not stand behind.
-/
import DualStack.Console
import DualStack.Proofs.Lines
import DualStack.Proofs.Spans

namespace DualStack

namespace Text

/-! ### What trimming takes off -/

/-- The blanks at the start of a text. -/
def leading (text : String) : List Char :=
  text.toList.takeWhile isBlank

/-- The blanks at the end of a text, without those that are at its start as well. -/
def trailing (text : String) : List Char :=
  ((text.toList.dropWhile isBlank).reverse.takeWhile isBlank).reverse

/-- What trimming leaves of a text, between what it takes off. -/
theorem toList_eq_trim (text : String) :
    text.toList = leading text ++ ((trim text).toList ++ trailing text) := by
  have hback : (trim text).toList ++ trailing text = text.toList.dropWhile isBlank := by
    unfold trim trimBlanks trimEnd trailing
    rw [String.toList_ofList, ← List.reverse_append, List.takeWhile_append_dropWhile,
      List.reverse_reverse]
  rw [hback]
  exact List.takeWhile_append_dropWhile.symm

theorem isBlank_of_mem_trailing {text : String} {c : Char} (h : c ∈ trailing text) :
    isBlank c = true :=
  List.all_eq_true.mp List.all_takeWhile c (List.mem_reverse.mp h)

end Text

/-! ### Separators at the ends -/

/-- A literal that is open stays open in front of a text without quotes. -/
theorem splitQuoted_append_open {cs rest : List Char} (h : (splitQuoted cs).2 = [])
    (hrest : '"' ∉ rest) : (splitQuoted (cs ++ rest)).2 = [] := by
  rcases (splitQuoted_hides (cs ++ rest)).2 with hopen | ⟨hclose, hfree⟩
  · exact hopen
  -- The quote that closes the literal would stand in `cs`, where every quote is hidden.
  have hbody : (splitQuoted cs).1 = cs := by
    have hwhole := splitQuoted_append cs
    rwa [h, List.append_nil] at hwhole
  have hhidden := (splitQuoted_hides cs).1
  rw [hbody] at hhidden
  obtain ⟨back, hback⟩ := List.head?_eq_some_iff.mp hclose
  have hsplit := splitQuoted_append (cs ++ rest)
  rw [hback] at hsplit
  rcases List.append_eq_append_iff.mp hsplit with ⟨tail, hcs, htail⟩ | ⟨tail, -, htail⟩
  · cases tail with
    | nil =>
        rw [List.nil_append] at htail
        exact absurd (htail ▸ List.mem_cons_self) hrest
    | cons c tail =>
        obtain ⟨rfl, -⟩ := List.cons.inj htail
        rw [hhidden _ _ hcs] at hfree
        exact absurd hfree (by simp)
  · exact absurd (htail ▸ List.mem_append_right tail List.mem_cons_self) hrest

namespace Cursor

variable {ends : List Char}

theorem tokens_leading (h : ∀ c ∈ ends, Text.isSeparator c = true) (cs : List Char) :
    ∀ offset, tokens ⟨offset, ends ++ cs⟩ = tokens ⟨offset + Text.width ends, cs⟩ := by
  induction ends with
  | nil =>
      intro offset
      rfl
  | cons c ends ih =>
      intro offset
      obtain ⟨hc, hends⟩ := List.forall_mem_cons.mp h
      rw [List.cons_append, tokens_separator hc, ih hends, Nat.add_assoc, ← Text.width_append,
        List.singleton_append]

theorem Closed.of_leading (h : ∀ c ∈ ends, Text.isSeparator c = true) {offset : Nat}
    {cs : List Char} (hclosed : Closed ⟨offset, ends ++ cs⟩) :
    Closed ⟨offset + Text.width ends, cs⟩ := by
  intro t ht hkind
  rw [← tokens_leading h] at ht
  have hend := hclosed t ht hkind
  dsimp only at hend ⊢
  rw [Text.width_append] at hend
  omega

/-- **Separators at the end of a source can go**, if every literal in front of them is closed. -/
theorem tokens_trailing (h : ∀ c ∈ ends, Text.isSeparator c = true) :
    ∀ offset cs, Closed ⟨offset, cs ++ ends⟩ →
      tokens ⟨offset, cs ++ ends⟩ = tokens ⟨offset, cs⟩ := by
  have hquote : '"' ∉ ends := fun hmem => absurd (h _ hmem) (by decide)
  have hseparated : Separated ends := fun c hc => h c (List.mem_of_mem_head? hc)
  refine scan_induction ?_ ?_ ?_
  · intro offset _
    have hskipped := tokens_leading h [] offset
    rw [List.append_nil] at hskipped
    rw [List.nil_append, hskipped, tokens_nil, tokens_nil]
  · intro offset c cs hc ih hclosed
    rw [List.cons_append, tokens_separator hc, tokens_separator hc, ih (hclosed.of_separator hc)]
  · intro offset c cs hc ih hclosed
    rw [List.cons_append] at hclosed
    have hread : Lexeme.read c (cs ++ ends) =
        { Lexeme.read c cs with rest := (Lexeme.read c cs).rest ++ ends } := by
      refine Lexeme.read_append ?_ hseparated
      rintro rfl hopen
      exact hclosed.front (splitQuoted_append_open hopen hquote)
    have hrest := hclosed.of_token hc
    rw [hread] at hrest
    rw [List.cons_append, tokens_cons hc, tokens_cons hc, hread, ih hrest]

end Cursor

/-! ### Trimmed lines -/

section Trimmed

open Text (leading trailing trim)

variable {line : String}

/-- Only separators are taken off the line. -/
def TrimsSeparators (line : String) : Prop :=
  ∀ c ∈ leading line ++ trailing line, c = ' ' ∨ c = '\t' ∨ c = '\n' ∨ c = '\r'

instance (line : String) : Decidable (TrimsSeparators line) :=
  List.decidableBAll _ (leading line ++ trailing line)

/-- The tokens of the line are those of the trimmed line, moved by the bytes that were in front
of it. -/
def TrimsAlike (line : String) : Prop :=
  Token.scan line = (Token.scan (trim line)).map (Token.shift (Text.width (leading line)))

theorem trimsAlike_of_separators (hclosed : QuotesClosed line) (h : TrimsSeparators line) :
    TrimsAlike line := by
  have hleading : ∀ c ∈ leading line, Text.isSeparator c = true := fun c hc =>
    (Text.isSeparator_iff c).mpr (h c (List.mem_append_left _ hc))
  have htrailing : ∀ c ∈ trailing line, Text.isSeparator c = true := fun c hc =>
    (Text.isSeparator_iff c).mpr (h c (List.mem_append_right _ hc))
  have hline := Cursor.closed_ofSource hclosed
  unfold TrimsAlike Token.scan Cursor.ofSource
  rw [Text.toList_eq_trim line] at hline ⊢
  rw [Cursor.tokens_leading hleading, Cursor.tokens_trailing htrailing _ _
    (hline.of_leading hleading), Cursor.tokens_shift]

namespace Site

variable {source : String} {sites : List Site} {s t : Site}

theorem Tile.mem_scan (htile : Tile [] source.toList sites) (hs : s ∈ sites) :
    s.token ∈ Token.scan source := by
  have htokens : sites.map Site.token = Token.scan source := htile.tokens
  rw [← htokens]
  exact List.mem_map_of_mem hs

/-- A literal that ends before its source does spans both of its quotes. -/
theorem Tile.span_of_closed (htile : Tile [] source.toList sites) (hs : s ∈ sites)
    (hclosed : QuotesClosed source) (hkind : s.token.kind = .text) :
    s.span = '"' :: (s.token.lexeme.toList ++ ['"']) := by
  rcases ((htile.faithful s hs).literal hkind).2 with ⟨hspan, -⟩ | ⟨hspan, hafter⟩
  · exact hspan
  · have hend := hclosed s.token (htile.mem_scan hs) hkind
    have hwhole := congrArg Text.width (htile.whole s hs)
    have hquote : Text.width ('"' :: s.token.lexeme.toList) =
        1 + Text.width s.token.lexeme.toList := rfl
    rw [hafter, List.append_nil, List.nil_append, Text.width_append, hspan, hquote] at hwhole
    rw [htile.offset s hs, Text.length_bytes, Text.length_bytes, ← hwhole] at hend
    unfold start at hend
    omega

/-- A token spans as much as the same token elsewhere does, but for the closing quote of a literal
that is open there. -/
theorem Faithful.span_eq_or_closes (hs : s.Faithful) (ht : t.Faithful)
    (hkind : s.token.kind = t.token.kind) (hlexeme : s.token.lexeme = t.token.lexeme)
    (hclosed : s.token.kind = .text → s.span = '"' :: (s.token.lexeme.toList ++ ['"'])) :
    s.span = t.span ∨ s.span = t.span ++ ['"'] ∧ t.after = [] := by
  by_cases htext : s.token.kind = .text
  · rw [hclosed htext, hlexeme]
    rcases (ht.literal (hkind ▸ htext)).2 with ⟨hspan, -⟩ | ⟨hspan, hafter⟩
    · exact Or.inl hspan.symm
    · exact Or.inr ⟨by rw [hspan, List.cons_append], hafter⟩
  · refine Or.inl ?_
    rw [← hs.verbatim htext, ← ht.verbatim (hkind ▸ htext), hlexeme]

end Site

namespace TrimsAlike

variable {sites cut : List Site} {s : Site}

/-- A token of the line has its match in the trimmed line. -/
theorem exists_match (h : TrimsAlike line) (htile : Site.Tile [] line.toList sites)
    (hcut : Site.Tile [] (trim line).toList cut) (hs : s ∈ sites) :
    ∃ t ∈ cut, s.token.kind = t.token.kind ∧ s.token.lexeme = t.token.lexeme ∧
      s.start = t.start + Text.width (leading line) := by
  have hmem := htile.mem_scan hs
  have hcuts : cut.map Site.token = Token.scan (trim line) := hcut.tokens
  rw [h, ← hcuts, List.map_map] at hmem
  obtain ⟨t, ht, htoken⟩ := List.mem_map.mp hmem
  have hkind : s.token.kind = t.token.kind := by rw [← htoken]; rfl
  have hlexeme : s.token.lexeme = t.token.lexeme := by rw [← htoken]; rfl
  have hoffset : s.token.offset = t.token.offset + Text.width (leading line) := by
    rw [← htoken]; rfl
  rw [htile.offset s hs, hcut.offset t ht] at hoffset
  exact ⟨t, ht, hkind, hlexeme, hoffset⟩

/-- No token starts where something was taken off in front. -/
theorem separators_leading (h : TrimsAlike line) :
    ∀ c ∈ leading line, Text.isSeparator c = true := by
  intro c hc
  by_contra hseparator
  obtain ⟨sites, htile⟩ := Site.Tile.exists_tile [] line.toList
  obtain ⟨cut, hcut⟩ := Site.Tile.exists_tile [] (trim line).toList
  obtain ⟨front, back, hsplit⟩ := List.append_of_mem hc
  have hwhole := Text.toList_eq_trim line
  rw [hsplit, List.append_assoc, List.cons_append] at hwhole
  obtain ⟨s, hs, hfrom, -⟩ := htile.covered front c _ hwhole (by simpa using hseparator)
  obtain ⟨t, -, -, -, hstart⟩ := h.exists_match htile hcut hs
  have hpos := c.utf8Size_pos
  rw [List.nil_append] at hfrom
  rw [hsplit, Text.width_append, Text.width_cons] at hstart
  omega

/-- No token reaches into what was taken off behind.  A literal that is open in the trimmed line
would reach one byte too far, to its closing quote; but a quote is never taken off. -/
theorem separators_trailing (h : TrimsAlike line) (hclosed : QuotesClosed line) :
    ∀ c ∈ trailing line, Text.isSeparator c = true := by
  intro c hc
  by_contra hseparator
  obtain ⟨sites, htile⟩ := Site.Tile.exists_tile [] line.toList
  obtain ⟨cut, hcut⟩ := Site.Tile.exists_tile [] (trim line).toList
  obtain ⟨front, back, hsplit⟩ := List.append_of_mem hc
  have hwhole := Text.toList_eq_trim line
  rw [hsplit, ← List.append_assoc, ← List.append_assoc] at hwhole
  obtain ⟨s, hs, -, hto⟩ := htile.covered _ c back hwhole (by simpa using hseparator)
  obtain ⟨t, ht, hkind, hlexeme, hstart⟩ := h.exists_match htile hcut hs
  have hline := (htile.whole s hs).trans hwhole
  have htrimmed := hcut.whole t ht
  simp only [List.nil_append, Text.width_append] at hto
  unfold Site.start at hstart
  unfold Site.stop at hto
  rcases (htile.faithful s hs).span_eq_or_closes (hcut.faithful t ht) hkind hlexeme
    (htile.span_of_closed hs hclosed) with hspan | ⟨hspan, hafter⟩
  · have hroom := congrArg Text.width htrimmed
    simp only [List.nil_append, Text.width_append] at hroom
    rw [Text.width_append, hspan] at hto
    omega
  · have hquote : Text.width ['"'] = 1 := rfl
    rw [hafter, List.append_nil, List.nil_append] at htrimmed
    have hroom := congrArg Text.width htrimmed
    rw [Text.width_append, hspan, Text.width_append, hquote] at hto
    rw [Text.width_append] at hroom
    have hfront : front = [] := Text.eq_nil_of_width (by omega)
    rw [hfront, hspan, List.append_nil, ← List.append_assoc, List.append_assoc] at hline
    have hsame : s.before ++ t.span = leading line ++ (trim line).toList := by
      refine Text.eq_of_width hline ?_
      rw [Text.width_append, Text.width_append]
      omega
    rw [hsame] at hline
    have hc' := (List.cons.inj (List.append_cancel_left hline)).1
    have hblank := Text.isBlank_of_mem_trailing hc
    rw [← hc'] at hblank
    exact absurd hblank (by decide)

end TrimsAlike

/-- **A line keeps its tokens exactly if only separators are taken off.** -/
theorem trimsAlike_iff (hclosed : QuotesClosed line) : TrimsAlike line ↔ TrimsSeparators line := by
  refine ⟨fun h => ?_, trimsAlike_of_separators hclosed⟩
  refine List.forall_mem_append.mpr ⟨fun c hc => ?_, fun c hc => ?_⟩
  · exact (Text.isSeparator_iff c).mp (h.separators_leading c hc)
  · exact (Text.isSeparator_iff c).mp (h.separators_trailing hclosed c hc)

/-! ### Running a trimmed line -/

theorem parseTokens_shift (d : Nat) (ts : List Token) :
    parseTokens (ts.map (Token.shift d)) = (parseTokens ts).mapError (ParseError.shift d) := by
  have hnone : parseTokens [] = .ok [] := rfl
  have hbehind : parseTokens ([] ++ ts.map (Token.shift d)) = _ :=
    parseTokens_append d (by simp) hnone
  rw [List.nil_append] at hbehind
  rw [hbehind]
  cases parseTokens ts <;> rfl

theorem TrimsAlike.parse_eq (h : TrimsAlike line) :
    parse line = (parse (trim line)).mapError
      (ParseError.shift (Text.width (leading line))) := by
  unfold parse
  rw [h, parseTokens_shift]

end Trimmed

/-- The failure, at a later place if it is one of the source. -/
def Failure.shift (d : Nat) : Failure → Failure
  | parse error => parse (error.shift d)
  | unreadable fault => unreadable fault
  | unflushed fault => unflushed fault
  | runtime reason => runtime reason

namespace Session

/-- The outcome of a run, with its failure at a later place. -/
def later (d : Nat) : EStateM.Result Failure Machine Unit → EStateM.Result Failure Machine Unit
  | .ok () m => .ok () m
  | .error failure m => .error (failure.shift d) m

/-- Sources with the same forest run alike, and errors of structure stay where they are. -/
theorem run_later {source typed : String} {d : Nat}
    (h : parse source = (parse typed).mapError (ParseError.shift d)) (fuel : Nat) (m : Machine) :
    run fuel source m = later d (run fuel typed m) := by
  unfold run
  rw [h]
  cases parse typed with
  | error error => rfl
  | ok nodes =>
      dsimp only [Except.mapError]
      cases Machine.interpret fuel nodes m with
      | ok _ k =>
          dsimp only
          cases flush k <;> rfl
      | error reason k =>
          dsimp only
          cases flush k <;> rfl

end Session

section Prompt

open Text (leading trailing trim)

/--
**A line keeps its tokens at the prompt exactly if only separators are taken off its ends.**

Let every text literal of a line be closed.  Trimming leaves the line without some
blanks in front and behind.  The tokens are the same, moved by the bytes taken off in
front, if and only if each of these blanks is a space, a tab, a line feed or a carriage
return.  If so, the line does at the prompt what it does as a script, from any state of
the session: the same machine is left and the same failure reported, an error of
structure at the place where it stands in the script.
-/
theorem trimming_harmless_iff_separators {line : String} (hclosed : QuotesClosed line) :
    line.toList = leading line ++ ((trim line).toList ++ trailing line) ∧
    (Token.scan line = (Token.scan (trim line)).map (Token.shift (Text.width (leading line))) ↔
      ∀ c ∈ leading line ++ trailing line, c = ' ' ∨ c = '\t' ∨ c = '\n' ∨ c = '\r') ∧
    ((∀ c ∈ leading line ++ trailing line, c = ' ' ∨ c = '\t' ∨ c = '\n' ∨ c = '\r') →
      ∀ (fuel : Nat) (bytes : List UInt8) (path : String) (c : Console),
        Text.ofBytes? bytes = some line →
        Session.sourceOf c.machine.world.files path = .ok line →
        ∃ outcome, c.line fuel bytes = c.settle "Failed run prompt: " outcome ∧
          c.script fuel path =
            c.settle "Failed run file: " (Session.later (Text.width (leading line)) outcome)) := by
  refine ⟨Text.toList_eq_trim line, trimsAlike_iff hclosed, ?_⟩
  intro hends fuel bytes path c hbytes hfile
  have halike := trimsAlike_of_separators hclosed hends
  refine ⟨Session.run fuel (trim line) c.machine, ?_, ?_⟩
  · unfold Console.line
    rw [hbytes]
  · unfold Console.script Session.runFile
    rw [hfile]
    dsimp only
    rw [Session.run_later halike.parse_eq]

/-- A directory with nothing in it but a text, under the name `a`. -/
def Directory.onlyFile (text : String) : Directory :=
  Directory.empty.insert ["a"] (.file (Text.bytes text))

theorem Session.sourceOf_onlyFile (text : String) :
    Session.sourceOf (.onlyFile text) "a" = .ok text := by
  have hpath : Directory.checkPath "a" = .ok () := by
    unfold Directory.checkPath
    rw [if_neg (by simp), if_neg (by decide), if_neg (by decide)]
  have hwritten : WrittenPath.ofString "a" = ⟨[], ["a"], false⟩ := by
    unfold WrittenPath.ofString
    have hnames : "a".splitToList (· == '/') = ["a"] := by decide +kernel
    rw [hnames]
    rfl
  have hread : (Directory.onlyFile text).readFile "a" = .ok (Text.bytes text) := by
    unfold Directory.readFile Directory.locate
    rw [hpath, hwritten]
    rfl
  simp [Session.sourceOf, hread, Text.ofBytes?_bytes, bind, Except.bind]

/-- A tab in front and a carriage return and a line feed behind, around a literal with blanks at
its own ends and a conditional that is not closed. -/
theorem trimming_harmless_iff_separators_unclosed :
    let line := "\t\" a \" . if\r\n"
    let c := Console.start none (.onlyFile line)
    QuotesClosed line ∧
    (∀ c ∈ leading line ++ trailing line, c = ' ' ∨ c = '\t' ∨ c = '\n' ∨ c = '\r') ∧
    Token.scan line = [⟨.text, " a ", 1⟩, ⟨.word, ".", 7⟩, ⟨.ifKeyword, "if", 9⟩] ∧
    Token.scan (trim line) = [⟨.text, " a ", 0⟩, ⟨.word, ".", 6⟩, ⟨.ifKeyword, "if", 8⟩] ∧
    ∃ outcome, c.line 20 (Text.bytes line) = c.settle "Failed run prompt: " outcome ∧
      c.script 20 "a" = c.settle "Failed run file: " (Session.later 1 outcome) := by
  intro line c
  have hclosed : QuotesClosed line := by decide +kernel
  have hends : TrimsSeparators line := by decide +kernel
  have hbytes := Text.ofBytes?_bytes line
  have hfile : Session.sourceOf c.machine.world.files "a" = .ok line :=
    Session.sourceOf_onlyFile line
  have hscan : Token.scan (trim line) =
      [⟨.text, " a ", 0⟩, ⟨.word, ".", 6⟩, ⟨.ifKeyword, "if", 8⟩] := by decide +kernel
  obtain ⟨-, halike, hruns⟩ := trimming_harmless_iff_separators hclosed
  have hfront : Text.width (leading line) = 1 := by decide +kernel
  rw [hfront] at halike hruns
  refine ⟨hclosed, hends, ?_, hscan, hruns hends 20 _ "a" c hbytes hfile⟩
  rw [halike.mpr hends, hscan]
  rfl

/-- A no-break space behind a word is taken off at the prompt and part of the word in a script:
the tokens differ, and only the prompt prints the number. -/
theorem trimming_not_harmless_at_no_break_space :
    let line := "1 .\u00a0\n"
    let c := Console.start none (.onlyFile line)
    QuotesClosed line ∧
    Token.scan line ≠ (Token.scan (trim line)).map (Token.shift (Text.width (leading line))) ∧
    Text.ofBytes? (Text.bytes line) = some line ∧
    Session.sourceOf c.machine.world.files "a" = .ok line ∧
    (c.line 20 (Text.bytes line)).machine.sink.contents = Text.bytes "1" ∧
    (c.script 20 "a").machine.sink.contents = [] := by
  intro line c
  have hbytes := Text.ofBytes?_bytes line
  have hfile : Session.sourceOf c.machine.world.files "a" = .ok line :=
    Session.sourceOf_onlyFile line
  refine ⟨by decide +kernel, by decide +kernel, hbytes, hfile, ?_, ?_⟩
  · unfold Console.line
    rw [hbytes]
    decide +kernel
  · unfold Console.script Session.runFile
    rw [hfile]
    decide +kernel

end Prompt

end DualStack
