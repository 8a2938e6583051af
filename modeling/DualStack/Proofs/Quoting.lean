/-
Which texts survive being quoted.

A shown character is the character itself, one of the five escapes, or spelt out
by its code point: `Shown`.  Whichever it is, the scanner passes over it as a
whole, so a shown text is found again between its quotes.  The first two forms are
resolved to the character; the third is not an escape and stays as it stands.
Since it is longer than one character, a text with such a character comes back
longer than it was, and `unescape_shown_iff` follows.
-/
import DualStack.Text.Quoted
import DualStack.Token.Scan

namespace DualStack.Text

/-- The escapes a text literal may use. -/
def escapes : List (List Char) :=
  [['\\', 'n'], ['\\', 't'], ['\\', 'r'], ['\\', '"'], ['\\', '\\']]

/-- A character that is shown as itself or by an escape that is read back. -/
def Legible (c : Char) : Prop :=
  showChar c = [c] ∨ showChar c ∈ escapes

instance (c : Char) : Decidable (Legible c) :=
  inferInstanceAs (Decidable (_ ∨ _))

/-- A character that means nothing special inside a text literal. -/
def Plain (c : Char) : Prop :=
  c ≠ '"' ∧ c ≠ '\\'

instance (c : Char) : Decidable (Plain c) :=
  inferInstanceAs (Decidable (_ ∧ _))

/-- The forms of a shown character. -/
inductive Shown (c : Char) : List Char → Prop
  | itself (h : Plain c) : Shown c [c]
  | escape {mark : Char} (hmark : ['\\', mark] ∈ escapes)
      (hread : ∀ rest, unescape ('\\' :: mark :: rest) = c :: unescape rest) :
      Shown c ['\\', mark]
  | spelt {mark : Char} {code : List Char} (hmark : ['\\', mark] ∉ escapes)
      (hcode : ∀ d ∈ code, Plain d) : Shown c ('\\' :: mark :: code)

/-! ### Code points -/

theorem plain_of_mem_hexDigits {n : Nat} {c : Char} (h : c ∈ hexDigits n) : Plain c := by
  have hdigit : ∀ k < 16, k.digitChar ≠ '"' ∧ k.digitChar ≠ '\\' := by decide
  unfold hexDigits at h
  induction n using Nat.strongRecOn with
  | ind n ih =>
      by_cases hsmall : n < 16
      · rw [Nat.toDigits_of_lt_base hsmall] at h
        obtain rfl : c = n.digitChar := by simpa using h
        exact hdigit n hsmall
      · rw [Nat.toDigits_of_base_le (by decide) (by omega)] at h
        rcases List.mem_append.mp h with h | h
        · exact ih (n / 16) (by omega) h
        · obtain rfl : c = (n % 16).digitChar := by simpa using h
          exact hdigit (n % 16) (by omega)

theorem plain_of_mem_code {c d : Char}
    (h : d ∈ '\x7b' :: (hexDigits c.toNat ++ ['\x7d'])) : Plain d := by
  rcases List.mem_cons.mp h with rfl | h
  · decide
  · rcases List.mem_append.mp h with h | h
    · exact plain_of_mem_hexDigits h
    · obtain rfl : d = '\x7d' := by simpa using h
      decide

theorem shown (c : Char) : Shown c (showChar c) := by
  by_cases hnull : c = '\x00'
  · subst hnull
    exact .spelt (by decide) (by simp)
  by_cases htab : c = '\t'
  · subst htab
    exact .escape (by decide) fun _ => rfl
  by_cases hreturn : c = '\r'
  · subst hreturn
    exact .escape (by decide) fun _ => rfl
  by_cases hnewline : c = '\n'
  · subst hnewline
    exact .escape (by decide) fun _ => rfl
  by_cases hquote : c = '"'
  · subst hquote
    exact .escape (by decide) fun _ => rfl
  by_cases hbackslash : c = '\\'
  · subst hbackslash
    exact .escape (by decide) fun _ => rfl
  rw [showChar, if_neg hnull, if_neg htab, if_neg hreturn, if_neg hnewline, if_neg hquote,
    if_neg hbackslash]
  by_cases hprintable : isPrintable c = true
  · rw [if_pos hprintable]
    exact .itself ⟨hquote, hbackslash⟩
  · rw [if_neg hprintable]
    exact .spelt (by decide) fun d hd => plain_of_mem_code hd

/-! ### Shown texts between quotes -/

theorem splitQuoted_cons {c : Char} (hc : Plain c) (cs : List Char) :
    splitQuoted (c :: cs) = (c :: (splitQuoted cs).1, (splitQuoted cs).2) := by
  rw [splitQuoted]
  · exact fun h => absurd h hc.1
  · exact fun _ _ h => absurd h hc.2

theorem splitQuoted_backslash (c : Char) (cs : List Char) :
    splitQuoted ('\\' :: c :: cs) = ('\\' :: c :: (splitQuoted cs).1, (splitQuoted cs).2) := by
  rw [splitQuoted]

theorem splitQuoted_plain {cs : List Char} (hcs : ∀ c ∈ cs, Plain c) (rest : List Char) :
    splitQuoted (cs ++ rest) = (cs ++ (splitQuoted rest).1, (splitQuoted rest).2) := by
  induction cs with
  | nil => rfl
  | cons c cs ih =>
      rw [List.cons_append, splitQuoted_cons (hcs c (List.mem_cons_self ..)),
        ih fun d hd => hcs d (List.mem_cons_of_mem _ hd)]
      rfl

/-- A shown character is passed over as a whole. -/
theorem Shown.split {c : Char} {cs : List Char} (h : Shown c cs) (rest : List Char) :
    splitQuoted (cs ++ rest) = (cs ++ (splitQuoted rest).1, (splitQuoted rest).2) := by
  cases h with
  | itself hplain => exact splitQuoted_cons hplain rest
  | escape => exact splitQuoted_backslash _ rest
  | spelt _ hcode =>
      rw [List.cons_append, List.cons_append, splitQuoted_backslash, splitQuoted_plain hcode]
      rfl

/-- A shown text ends at the quote behind it. -/
theorem splitQuoted_shown (cs rest : List Char) :
    splitQuoted (cs.flatMap showChar ++ '"' :: rest) = (cs.flatMap showChar, '"' :: rest) := by
  induction cs with
  | nil => rfl
  | cons c cs ih =>
      rw [List.flatMap_cons, List.append_assoc, (shown c).split, ih]

/-! ### Shown texts read back -/

theorem unescape_cons {c : Char} (hc : c ≠ '\\') (cs : List Char) :
    unescape (c :: cs) = c :: unescape cs := by
  rw [unescape]
  all_goals
    intros
    simp_all

theorem unescape_other {c : Char} (hc : ['\\', c] ∉ escapes) (cs : List Char) :
    unescape ('\\' :: c :: cs) = '\\' :: c :: unescape cs := by
  simp only [escapes, List.mem_cons, List.cons.injEq, true_and, and_true, List.not_mem_nil,
    or_false, not_or] at hc
  obtain ⟨hn, ht, hr, hquote, hbackslash⟩ := hc
  rw [unescape]
  all_goals assumption

theorem unescape_plain {cs : List Char} (hcs : ∀ c ∈ cs, Plain c) (rest : List Char) :
    unescape (cs ++ rest) = cs ++ unescape rest := by
  induction cs with
  | nil => rfl
  | cons c cs ih =>
      rw [List.cons_append, unescape_cons (hcs c (List.mem_cons_self ..)).2,
        ih fun d hd => hcs d (List.mem_cons_of_mem _ hd)]
      rfl

/-- What becomes of a character that is shown and read back. -/
def reread (c : Char) : List Char :=
  if Legible c then [c] else showChar c

theorem not_legible_of_spelt {c mark : Char} {code : List Char}
    (hshown : showChar c = '\\' :: mark :: code) (hmark : ['\\', mark] ∉ escapes) :
    ¬ Legible c := by
  unfold Legible
  rw [hshown]
  rintro (h | h)
  · simp at h
  · have hpairs : ∀ e ∈ escapes, e.length = 2 := by decide
    have hcode : code = [] := by simpa using hpairs _ h
    rw [hcode] at h
    exact hmark h

theorem unescape_showChar (c : Char) (rest : List Char) :
    unescape (showChar c ++ rest) = reread c ++ unescape rest := by
  unfold reread
  have hform := shown c
  generalize hshown : showChar c = form at hform ⊢
  cases hform with
  | itself hplain =>
      have hlegible : Legible c := Or.inl hshown
      rw [if_pos hlegible]
      exact unescape_cons hplain.2 rest
  | escape hmark hread =>
      have hlegible : Legible c := Or.inr (hshown ▸ hmark)
      rw [if_pos hlegible]
      exact hread rest
  | spelt hmark hcode =>
      rw [if_neg (not_legible_of_spelt hshown hmark), List.cons_append, List.cons_append,
        unescape_other hmark, unescape_plain hcode]
      rfl

theorem unescape_shown (cs : List Char) : unescape (cs.flatMap showChar) = cs.flatMap reread := by
  induction cs with
  | nil => rfl
  | cons c cs ih => rw [List.flatMap_cons, unescape_showChar, ih, List.flatMap_cons]

theorem length_reread (c : Char) : 1 ≤ (reread c).length ∧
    (¬ Legible c → 2 ≤ (reread c).length) := by
  unfold reread
  by_cases hlegible : Legible c
  · rw [if_pos hlegible]
    exact ⟨Nat.le_refl 1, fun hnot => absurd hlegible hnot⟩
  · rw [if_neg hlegible]
    have hform := shown c
    generalize hshown : showChar c = form at hform ⊢
    cases hform with
    | itself => exact absurd (Or.inl hshown) hlegible
    | escape hmark => exact absurd (Or.inr (hshown ▸ hmark)) hlegible
    | spelt => simp

theorem length_le_flatMap_reread (cs : List Char) : cs.length ≤ (cs.flatMap reread).length := by
  induction cs with
  | nil => exact Nat.le_refl 0
  | cons c cs ih =>
      have hfirst := (length_reread c).1
      rw [List.flatMap_cons, List.length_append, List.length_cons]
      omega

/-- **A shown text reads back if and only if all of its characters are legible.** -/
theorem unescape_shown_iff (cs : List Char) :
    unescape (cs.flatMap showChar) = cs ↔ ∀ c ∈ cs, Legible c := by
  rw [unescape_shown]
  induction cs with
  | nil => simp
  | cons c cs ih =>
      rw [List.flatMap_cons, List.forall_mem_cons, ← ih]
      by_cases hlegible : Legible c
      · have hfirst : reread c = [c] := if_pos hlegible
        rw [hfirst]
        simp [hlegible]
      · -- Spelt out, the character alone takes up the room of two.
        have hfirst := (length_reread c).2 hlegible
        have hrest := length_le_flatMap_reread cs
        constructor
        · intro hsame
          have hlength := congrArg List.length hsame
          rw [List.length_append, List.length_cons] at hlength
          omega
        · exact fun h => absurd h.1 hlegible

end DualStack.Text
