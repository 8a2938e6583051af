/-
Scanning a text that was put together from tokens.

A token runs as far as it can, so what it is depends on what follows it.  If a
separator follows, or nothing, it is on its own: `Spells` is said of a text that
is one token in front of every such rest.  The four shapes of tokens each have
their condition, and every word of a scanned source meets one of them, so it can
be written into another source and is found there again.

`Reads` is the same for a text of any number of tokens, told by a property of
them.  Texts that are joined by separators are read one after the other.
-/
import DualStack.Token.Scan
import Mathlib.Tactic.SplitIfs

namespace DualStack

/-! ### Runs of characters -/

section Runs

variable {p : Char → Bool} {cs rest : List Char}

theorem takeWhile_run (hcs : ∀ c ∈ cs, p c = true) (hrest : ∀ c ∈ rest.head?, p c = false) :
    (cs ++ rest).takeWhile p = cs := by
  rw [List.takeWhile_append_of_pos hcs]
  cases rest with
  | nil => rw [List.takeWhile_nil, List.append_nil]
  | cons c rest =>
      have hc : ¬ p c = true := by simp [hrest c rfl]
      rw [List.takeWhile_cons_of_neg hc, List.append_nil]

theorem dropWhile_run (hcs : ∀ c ∈ cs, p c = true) (hrest : ∀ c ∈ rest.head?, p c = false) :
    (cs ++ rest).dropWhile p = rest := by
  rw [List.dropWhile_append_of_pos hcs]
  cases rest with
  | nil => rw [List.dropWhile_nil]
  | cons c rest =>
      have hc : ¬ p c = true := by simp [hrest c rfl]
      rw [List.dropWhile_cons_of_neg hc]

end Runs

/-- Nothing follows, or a separator does. -/
def Separated (cs : List Char) : Prop :=
  ∀ c ∈ cs.head?, Text.isSeparator c = true

theorem separated_nil : Separated [] := by
  intro c hc
  simp at hc

theorem separated_cons {c : Char} (h : Text.isSeparator c = true) (cs : List Char) :
    Separated (c :: cs) := by
  intro d hd
  obtain rfl : c = d := by simpa using hd
  exact h

theorem Separated.append {cs rest : List Char} (hcs : Separated cs) (hrest : Separated rest) :
    Separated (cs ++ rest) := by
  cases cs with
  | nil => exact hrest
  | cons c cs => exact separated_cons (hcs c rfl) _

/-! ### One step of the scanner -/

namespace Cursor

/-- The tokens from a place on depend only on what follows its separators. -/
theorem tokens_eq_of_skip {k k' : Cursor} (h : k.skip = k'.skip) : k.tokens = k'.tokens := by
  have hnext : k.next = k'.next := by
    unfold next
    rw [h]
  rw [tokens.eq_def k, tokens.eq_def k', h, hnext]

theorem tokens_nil (offset : Nat) : tokens ⟨offset, []⟩ = [] := by
  have hend : (skip ⟨offset, []⟩).rest = [] := rfl
  rw [tokens, dif_pos hend]

theorem tokens_separator {c : Char} (hc : Text.isSeparator c = true) (offset : Nat)
    (cs : List Char) : tokens ⟨offset, c :: cs⟩ = tokens ⟨offset + Text.width [c], cs⟩ := by
  refine tokens_eq_of_skip ?_
  unfold skip
  rw [List.takeWhile_cons_of_pos hc, List.dropWhile_cons_of_pos hc]
  simp only [Text.width_cons, Text.width_nil, Nat.add_assoc, Nat.add_zero]

theorem skip_cons {c : Char} (hc : Text.isSeparator c = false) (offset : Nat) (cs : List Char) :
    skip ⟨offset, c :: cs⟩ = ⟨offset, c :: cs⟩ := by
  have hc' : ¬ Text.isSeparator c = true := by simp [hc]
  unfold skip
  rw [List.takeWhile_cons_of_neg hc', List.dropWhile_cons_of_neg hc', Text.width_nil, Nat.add_zero]

theorem tokens_cons {c : Char} (hc : Text.isSeparator c = false) (offset : Nat) (cs : List Char) :
    tokens ⟨offset, c :: cs⟩ =
      ⟨(Lexeme.read c cs).kind, String.ofList (Lexeme.read c cs).text, offset⟩ ::
        tokens ⟨offset + Text.width (Lexeme.read c cs).span, (Lexeme.read c cs).rest⟩ := by
  rw [tokens, next, skip_cons hc, dif_neg (by simp)]

theorem skip_rest_head {k : Cursor} {c : Char} {cs : List Char} (h : k.skip.rest = c :: cs) :
    Text.isSeparator c = false := by
  have hhead := List.head?_dropWhile_not Text.isSeparator k.rest
  have hrest : k.rest.dropWhile Text.isSeparator = c :: cs := h
  rw [hrest] at hhead
  exact hhead

/-- Every token starts at a character that is no separator. -/
theorem of_mem_tokens {k : Cursor} {t : Token} (h : t ∈ k.tokens) :
    ∃ c cs offset, Text.isSeparator c = false ∧
      t = ⟨(Lexeme.read c cs).kind, String.ofList (Lexeme.read c cs).text, offset⟩ := by
  fun_induction tokens k with
  | case1 k hend => simp at h
  | case2 k hmore ih =>
      rcases List.mem_cons.mp h with rfl | hrest
      · obtain ⟨c, cs, hskip⟩ := List.exists_cons_of_ne_nil hmore
        refine ⟨c, cs, k.skip.offset, skip_rest_head hskip, ?_⟩
        have hk : k.skip = ⟨k.skip.offset, c :: cs⟩ := by rw [← hskip]
        unfold next
        rw [hk]
      · exact ih hrest

end Cursor

/-! ### Texts that are one token -/

/-- The text is one token, whatever follows it behind a separator. -/
def Spells (text : List Char) (kind : TokenKind) (lexeme : List Char) : Prop :=
  ∃ c cs, text = c :: cs ∧ Text.isSeparator c = false ∧ ∀ rest, Separated rest →
    (Lexeme.read c (cs ++ rest)).kind = kind ∧ (Lexeme.read c (cs ++ rest)).text = lexeme ∧
      (Lexeme.read c (cs ++ rest)).rest = rest

namespace Spells

/-- A character that is a token on its own. -/
theorem punctuation {c : Char} {kind : TokenKind} (h : TokenKind.ofPunctuation? c = some kind)
    (hc : Text.isSeparator c = false) : Spells [c] kind [c] := by
  refine ⟨c, [], rfl, hc, fun rest _ => ?_⟩
  unfold Lexeme.read
  rw [h]
  exact ⟨rfl, rfl, rfl⟩

/-- A character that starts neither punctuation nor a literal. -/
structure StartsWord (c : Char) : Prop where
  punctuation : TokenKind.ofPunctuation? c = none
  quote : c ≠ '"'
  number : startsNumber c = false

theorem read_word {c : Char} (h : StartsWord c) (cs : List Char) :
    Lexeme.read c cs = Lexeme.word c cs := by
  unfold Lexeme.read
  rw [h.punctuation]
  dsimp only
  rw [if_neg h.quote, h.number]
  rfl

/-- A run of characters none of which is a separator. -/
theorem word {c : Char} {cs : List Char} (hstart : StartsWord c)
    (hcs : ∀ d ∈ c :: cs, Text.isSeparator d = false) :
    Spells (c :: cs) (.ofWord (String.ofList (c :: cs))) (c :: cs) := by
  refine ⟨c, cs, rfl, hcs c (List.mem_cons_self ..), fun rest hrest => ?_⟩
  have hrun : ∀ d ∈ cs, (!Text.isSeparator d) = true := by
    intro d hd
    rw [hcs d (List.mem_cons_of_mem _ hd)]
    rfl
  have hstop : ∀ d ∈ rest.head?, (!Text.isSeparator d) = false := by
    intro d hd
    rw [hrest d hd]
    rfl
  rw [read_word hstart]
  unfold Lexeme.word
  dsimp only
  rw [takeWhile_run hrun hstop, dropWhile_run hrun hstop]
  exact ⟨rfl, rfl, rfl⟩

/-- What a run of numeric characters is. -/
def numericKind (run : List Char) : TokenKind :=
  match Decimal.read? run with
  | some x => .number x
  | none => .word

/-- No other shape of token starts with a digit or a minus sign. -/
theorem of_startsNumber {c : Char} (h : startsNumber c = true) :
    TokenKind.ofPunctuation? c = none ∧ c ≠ '"' ∧ Text.isSeparator c = false := by
  have hne : ∀ d, startsNumber d = false → c ≠ d := by
    rintro d hd rfl
    exact absurd h (by simp [hd])
  refine ⟨?_, hne '"' (by decide), ?_⟩
  · unfold TokenKind.ofPunctuation?
    rw [if_neg (hne _ (by decide)), if_neg (hne _ (by decide)), if_neg (hne _ (by decide)),
      if_neg (hne _ (by decide)), if_neg (hne _ (by decide)), if_neg (hne _ (by decide))]
  · simp [Text.isSeparator, hne ' ' (by decide), hne '\t' (by decide), hne '\n' (by decide),
      hne '\r' (by decide)]

theorem read_numeric {c : Char} (h : startsNumber c = true) (cs : List Char) :
    Lexeme.read c cs = Lexeme.numeric c cs := by
  obtain ⟨hpunctuation, hquote, -⟩ := of_startsNumber h
  unfold Lexeme.read
  rw [hpunctuation]
  dsimp only
  rw [if_neg hquote, if_pos h]

theorem isNumeric_of_isSeparator {c : Char} (h : Text.isSeparator c = true) :
    isNumeric c = false := by
  simp only [Text.isSeparator, Bool.or_eq_true, beq_iff_eq] at h
  rcases h with ((rfl | rfl) | rfl) | rfl <;> decide

/-- A run of numeric characters. -/
theorem numeric {c : Char} {cs : List Char} (hstart : startsNumber c = true)
    (hcs : ∀ d ∈ cs, isNumeric d = true) : Spells (c :: cs) (numericKind (c :: cs)) (c :: cs) := by
  refine ⟨c, cs, rfl, (of_startsNumber hstart).2.2, fun rest hrest => ?_⟩
  have hstop : ∀ d ∈ rest.head?, isNumeric d = false := fun d hd =>
    isNumeric_of_isSeparator (hrest d hd)
  rw [read_numeric hstart]
  unfold Lexeme.numeric
  dsimp only
  rw [takeWhile_run hcs hstop, dropWhile_run hcs hstop]
  exact ⟨rfl, rfl, rfl⟩

/-- A text literal whose body ends at the closing quote. -/
theorem quoted {body : List Char}
    (h : ∀ rest, splitQuoted (body ++ '"' :: rest) = (body, '"' :: rest)) :
    Spells ('"' :: (body ++ ['"'])) .text body := by
  refine ⟨'"', body ++ ['"'], rfl, by decide, fun rest _ => ?_⟩
  have hread : Lexeme.read '"' (body ++ ['"'] ++ rest) = Lexeme.quoted (body ++ '"' :: rest) := by
    rw [List.append_assoc]
    rfl
  rw [hread]
  unfold Lexeme.quoted
  rw [h rest]
  exact ⟨rfl, rfl, rfl⟩

theorem ofPunctuation?_kind {c : Char} {kind : TokenKind}
    (h : TokenKind.ofPunctuation? c = some kind) : kind ≠ .word ∧ kind ≠ .eof := by
  unfold TokenKind.ofPunctuation? at h
  split_ifs at h
  all_goals
    cases h
    decide

/-- A word that is not a run of numeric characters is a run without separators. -/
theorem startsWord_of_kind {c : Char} {cs : List Char} (hnumber : startsNumber c = false)
    (hkind : (Lexeme.read c cs).kind = .word) : StartsWord c := by
  unfold Lexeme.read at hkind
  cases hpunctuation : TokenKind.ofPunctuation? c with
  | some kind =>
      rw [hpunctuation] at hkind
      exact absurd hkind (ofPunctuation?_kind hpunctuation).1
  | none =>
      rw [hpunctuation] at hkind
      dsimp only at hkind
      refine ⟨hpunctuation, ?_, hnumber⟩
      intro hquote
      rw [if_pos hquote] at hkind
      exact absurd hkind (by simp [Lexeme.quoted])

/-- A word that was read can be read again. -/
theorem of_read_word {c : Char} {cs : List Char} (hc : Text.isSeparator c = false)
    (hkind : (Lexeme.read c cs).kind = .word) :
    Spells (Lexeme.read c cs).text .word (Lexeme.read c cs).text := by
  by_cases hnumber : startsNumber c = true
  · rw [read_numeric hnumber] at hkind ⊢
    have hrun : ∀ d ∈ cs.takeWhile isNumeric, isNumeric d = true :=
      List.all_eq_true.mp List.all_takeWhile
    have hspells := numeric hnumber hrun
    have hword : numericKind (c :: cs.takeWhile isNumeric) = .word := hkind
    rw [hword] at hspells
    exact hspells
  · have hstart := startsWord_of_kind (by simpa using hnumber) hkind
    rw [read_word hstart] at hkind ⊢
    have hrun : ∀ d ∈ c :: cs.takeWhile (!Text.isSeparator ·), Text.isSeparator d = false := by
      intro d hd
      rcases List.mem_cons.mp hd with rfl | hd
      · exact hc
      · simpa using List.all_eq_true.mp List.all_takeWhile d hd
    have hspells := word hstart hrun
    have hword : TokenKind.ofWord (String.ofList (c :: cs.takeWhile (!Text.isSeparator ·))) =
        .word := hkind
    rw [hword] at hspells
    exact hspells

end Spells

theorem Lexeme.kind_ne_eof (c : Char) (cs : List Char) : (Lexeme.read c cs).kind ≠ .eof := by
  unfold Lexeme.read
  split
  · rename_i kind hpunctuation
    exact (Spells.ofPunctuation?_kind hpunctuation).2
  · split
    · simp [Lexeme.quoted]
    · split
      · unfold Lexeme.numeric
        dsimp only
        split <;> simp
      · unfold Lexeme.word TokenKind.ofWord
        dsimp only
        split_ifs <;> simp

/-- What scanning a source yields: no end token, and words that can be read again. -/
theorem of_mem_scan {source : String} {t : Token} (h : t ∈ Token.scan source) :
    t.kind ≠ .eof ∧ (t.kind = .word → Spells t.lexeme.toList .word t.lexeme.toList) := by
  obtain ⟨c, cs, offset, hc, rfl⟩ := Cursor.of_mem_tokens h
  refine ⟨Lexeme.kind_ne_eof c cs, fun hkind => ?_⟩
  rw [String.toList_ofList]
  exact Spells.of_read_word hc hkind

/-! ### Texts of several tokens -/

/-- The text is tokens with the given property, whatever follows it behind a separator. -/
def Reads (text : List Char) (P : List Token → Prop) : Prop :=
  ∀ offset rest, Separated rest → ∃ ts offset', P ts ∧
    Cursor.tokens ⟨offset, text ++ rest⟩ = ts ++ Cursor.tokens ⟨offset', rest⟩

namespace Reads

variable {text after : List Char} {P Q : List Token → Prop}

theorem imp (h : Reads text P) (himp : ∀ ts, P ts → Q ts) : Reads text Q := by
  intro offset rest hrest
  obtain ⟨ts, offset', hts, htokens⟩ := h offset rest hrest
  exact ⟨ts, offset', himp ts hts, htokens⟩

theorem nil : Reads [] (· = []) :=
  fun offset _ _ => ⟨[], offset, rfl, rfl⟩

theorem token {kind : TokenKind} {lexeme : List Char} (h : Spells text kind lexeme) :
    Reads text fun ts => ∃ offset, ts = [⟨kind, String.ofList lexeme, offset⟩] := by
  obtain ⟨c, cs, rfl, hc, hread⟩ := h
  intro offset rest hrest
  obtain ⟨hkind, htext, hremaining⟩ := hread rest hrest
  refine ⟨_, offset + Text.width (Lexeme.read c (cs ++ rest)).span, ⟨offset, rfl⟩, ?_⟩
  rw [List.cons_append, Cursor.tokens_cons hc, hkind, htext, hremaining]
  rfl

/-- A separator in front changes nothing. -/
theorem separator {c : Char} (hc : Text.isSeparator c = true) (h : Reads text P) :
    Reads (c :: text) P := by
  intro offset rest hrest
  obtain ⟨ts, offset', hts, htokens⟩ := h (offset + Text.width [c]) rest hrest
  refine ⟨ts, offset', hts, ?_⟩
  rw [List.cons_append, Cursor.tokens_separator hc, htokens]

/-- Two texts are read one after the other if the second starts with a separator. -/
theorem append (h : Reads text P) (hafter : Reads after Q) (hsep : Separated after) :
    Reads (text ++ after) fun ts => ∃ us vs, P us ∧ Q vs ∧ ts = us ++ vs := by
  intro offset rest hrest
  obtain ⟨us, middle, hus, hfirst⟩ := h offset (after ++ rest) (hsep.append hrest)
  obtain ⟨vs, offset', hvs, hsecond⟩ := hafter middle rest hrest
  refine ⟨us ++ vs, offset', ⟨us, vs, hus, hvs, rfl⟩, ?_⟩
  rw [List.append_assoc, hfirst, hsecond, List.append_assoc]

/-- All of a source. -/
theorem scan {source : String} (h : Reads source.toList P) : P (Token.scan source) := by
  obtain ⟨ts, offset', hts, htokens⟩ := h 0 [] separated_nil
  rw [List.append_nil, Cursor.tokens_nil, List.append_nil] at htokens
  unfold Token.scan Cursor.ofSource
  rw [htokens]
  exact hts

end Reads

end DualStack
