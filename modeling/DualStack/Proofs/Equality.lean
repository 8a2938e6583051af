/-
Equality of values.

Two values are the same if one step of comparing finds them so, where members are
again compared by being the same: plain values have to be equal, numbers equal as
numbers, and two lists or two vectors have to agree member by member.  `Alike` is
that step and `same_iff` says that `same` is what passes it.  A law of equality is
therefore shown for one step, supposing it for the members, and then holds of all
values by induction.

Numbers bring in the one gap: NaN equals nothing.  So equality is symmetric and
transitive, and a value equals itself exactly if it holds no NaN, however deep.

A text and a reference with the same letters are equal without being the same.  This
holds at the top only, and since being the same as a text means being that text it
fits in with the laws.
-/
import Mathlib
import DualStack.Value.Arithmetic

namespace DualStack.Value

/-- Values whose equality is that of what they hold: all but numbers, lists and vectors. -/
def isPlain : Value → Bool
  | number _ | list _ | vector _ => false
  | _ => true

/-- One step of comparing two values, where members are compared by `R`. -/
inductive Alike (R : Value → Value → Prop) : Value → Value → Prop
  | plain {v : Value} (h : v.isPlain = true) : Alike R v v
  | number {x y : Float} (h : (x == y) = true) : Alike R (number x) (number y)
  | list {c d : Chain Value} (hlength : c.length = d.length)
      (h : List.Forall₂ R c.cells d.cells) : Alike R (list c) (list d)
  | vector {as bs : List Value} (h : List.Forall₂ R as bs) : Alike R (vector as) (vector bs)

/-- A value is NaN, or a list or a vector that holds NaN, at any depth. -/
inductive HoldsNaN : Value → Prop
  | number {x : Float} (h : x.isNaN = true) : HoldsNaN (number x)
  | member {v w : Value} (hw : w ∈ v.members) (h : HoldsNaN w) : HoldsNaN v

theorem sizeOf_lt_of_mem_members {v w : Value} (hw : w ∈ v.members) : sizeOf w < sizeOf v := by
  cases v with
  | list chain =>
      obtain ⟨cells, length⟩ := chain
      have hlt := List.sizeOf_lt_of_mem (show w ∈ cells from hw)
      simp only [list.sizeOf_spec, Chain.mk.sizeOf_spec]
      omega
  | vector elements =>
      have hlt := List.sizeOf_lt_of_mem (show w ∈ elements from hw)
      simp only [vector.sizeOf_spec]
      omega
  | _ => exact absurd hw (by simp [members])

/-- What holds of a value as soon as it holds of its members holds of every value. -/
@[elab_as_elim]
theorem induction_on {P : Value → Prop} (v : Value)
    (step : ∀ v, (∀ w ∈ v.members, P w) → P v) : P v :=
  step v fun w _ => induction_on w step
termination_by v
decreasing_by exact sizeOf_lt_of_mem_members ‹_›

/-! ### Numbers -/

section Numbers

variable {x y z : Float}

theorem number_beq_symm (h : (x == y) = true) : (y == x) = true := by
  rw [Float.beq_iff_ne_nan_and_eq] at h ⊢
  obtain ⟨hx, hy, h⟩ := h
  exact ⟨hy, hx, by tauto⟩

theorem number_beq_trans (hxy : (x == y) = true) (hyz : (y == z) = true) : (x == z) = true := by
  rw [Float.beq_iff_ne_nan_and_eq] at hxy hyz ⊢
  obtain ⟨hx, -, hxy⟩ := hxy
  obtain ⟨-, hz, hyz⟩ := hyz
  refine ⟨hx, hz, ?_⟩
  -- Equal numbers are identical or the two zeros.
  rcases hxy with rfl | ⟨rfl, rfl⟩ | ⟨rfl, rfl⟩
  · exact hyz
  · rcases hyz with rfl | ⟨h, rfl⟩ | ⟨-, rfl⟩
    · exact Or.inr (Or.inl ⟨rfl, rfl⟩)
    · exact Or.inr (Or.inl ⟨rfl, rfl⟩)
    · exact Or.inl rfl
  · rcases hyz with rfl | ⟨-, rfl⟩ | ⟨h, rfl⟩
    · exact Or.inr (Or.inr ⟨rfl, rfl⟩)
    · exact Or.inl rfl
    · exact Or.inr (Or.inr ⟨rfl, rfl⟩)

theorem number_beq_self : (x == x) = true ↔ ¬ x.isNaN = true := by
  rw [Float.beq_self_iff, Float.isNaN_eq_decide_eq_nan, decide_eq_true_iff]

end Numbers

/-! ### One step -/

section Step

variable {R S : Value → Value → Prop} {a b c : Value}

theorem forall₂_symm {as bs : List Value} (h : List.Forall₂ R as bs)
    (hsymm : ∀ v ∈ as, ∀ {w}, R v w → S w v) : List.Forall₂ S bs as := by
  induction h with
  | nil => exact .nil
  | cons hab _ ih =>
      exact .cons (hsymm _ List.mem_cons_self hab)
        (ih fun v hv => hsymm v (List.mem_cons_of_mem _ hv))

theorem forall₂_trans {as bs cs : List Value} (hab : List.Forall₂ R as bs)
    (hbc : List.Forall₂ R bs cs) (htrans : ∀ v ∈ as, ∀ {w z}, R v w → R w z → S v z) :
    List.Forall₂ S as cs := by
  induction hab generalizing cs with
  | nil =>
      cases hbc
      exact .nil
  | cons hvw _ ih =>
      cases hbc with
      | cons hwz hrest =>
          exact .cons (htrans _ List.mem_cons_self hvw hwz)
            (ih hrest fun v hv => htrans v (List.mem_cons_of_mem _ hv))

theorem Alike.symm (h : Alike R a b) (hsymm : ∀ v ∈ a.members, ∀ {w}, R v w → S w v) :
    Alike S b a := by
  cases h with
  | plain h => exact .plain h
  | number h => exact .number (number_beq_symm h)
  | list hlength h => exact .list hlength.symm (forall₂_symm h hsymm)
  | vector h => exact .vector (forall₂_symm h hsymm)

theorem Alike.trans (hab : Alike R a b) (hbc : Alike R b c)
    (htrans : ∀ v ∈ a.members, ∀ {w z}, R v w → R w z → S v z) : Alike S a c := by
  cases hab with
  | plain h =>
      cases hbc with
      | plain _ => exact .plain h
      | number _ | list _ _ | vector _ => exact absurd h (by simp [isPlain])
  | number h =>
      cases hbc with
      | plain _ => exact .number h
      | number h' => exact .number (number_beq_trans h h')
  | list hlength h =>
      cases hbc with
      | plain h' => exact absurd h' (by simp [isPlain])
      | list hlength' h' => exact .list (hlength.trans hlength') (forall₂_trans h h' htrans)
  | vector h =>
      cases hbc with
      | plain h' => exact absurd h' (by simp [isPlain])
      | vector h' => exact .vector (forall₂_trans h h' htrans)

/-- A step finds a value like itself unless it holds NaN, if it does so with the members. -/
theorem alike_self_iff (hmembers : ∀ v ∈ a.members, (R v v ↔ ¬ HoldsNaN v)) :
    Alike R a a ↔ ¬ HoldsNaN a := by
  constructor
  · intro hself hnan
    cases hnan with
    | number hx =>
        cases hself with
        | plain hplain => exact absurd hplain (by simp [isPlain])
        | number heq => exact number_beq_self.mp heq hx
    | @member _ w hw hnan =>
        refine (hmembers w hw).mp ?_ hnan
        cases hself with
        | plain hplain => cases a <;> simp_all [members, isPlain]
        | number _ => exact absurd hw (by simp [members])
        | list _ hall => exact List.forall₂_same.mp hall w hw
        | vector hall => exact List.forall₂_same.mp hall w hw
  · intro hnan
    have hall : List.Forall₂ R a.members a.members := List.forall₂_same.mpr fun v hv =>
      (hmembers v hv).mpr fun hv' => hnan (.member hv hv')
    cases a with
    | number x => exact .number (number_beq_self.mpr fun hx => hnan (.number hx))
    | list chain => exact .list rfl hall
    | vector elements => exact .vector hall
    | _ => exact .plain rfl

end Step

/-! ### Being the same -/

section Same

variable {a b c : Value}

theorem sameAll_iff {as bs : List Value} :
    sameAll as bs = true ↔ List.Forall₂ (same · · = true) as bs := by
  induction as generalizing bs with
  | nil => cases bs <;> simp [sameAll]
  | cons a as ih => cases bs <;> simp [sameAll, ih]

/-- **Values are the same if a step of comparing finds them so.** -/
theorem same_iff : same a b = true ↔ Alike (same · · = true) a b := by
  constructor
  · intro h
    fun_cases same a b with
    | case1 => exact .plain rfl
    | case2 x y => exact .number (by rwa [same] at h)
    | case3 | case4 | case5 | case6 | case7 | case10 =>
        rw [same, beq_iff_eq] at h
        rw [h]
        exact .plain rfl
    | case8 c d =>
        rw [same, sameChain, Bool.and_eq_true, beq_iff_eq] at h
        exact .list h.1 (sameAll_iff.mp h.2)
    | case9 as bs =>
        rw [same] at h
        exact .vector (sameAll_iff.mp h)
    | case11 => simp_all [same]
  · intro h
    cases h with
    | plain h => cases a <;> simp_all [same, isPlain]
    | number h => exact h
    | list hlength h =>
        rw [same, sameChain, Bool.and_eq_true, beq_iff_eq]
        exact ⟨hlength, sameAll_iff.mpr h⟩
    | vector h =>
        rw [same]
        exact sameAll_iff.mpr h

theorem same_symm (a : Value) : ∀ {b : Value}, same a b = true → same b a = true := by
  induction a using induction_on with
  | step a ih =>
      intro b h
      exact same_iff.mpr ((same_iff.mp h).symm ih)

theorem same_trans (a : Value) :
    ∀ {b c : Value}, same a b = true → same b c = true → same a c = true := by
  induction a using induction_on with
  | step a ih =>
      intro b c hab hbc
      exact same_iff.mpr ((same_iff.mp hab).trans (same_iff.mp hbc) ih)

theorem same_self_iff (a : Value) : same a a = true ↔ ¬ HoldsNaN a := by
  induction a using induction_on with
  | step a ih => exact same_iff.trans (alike_self_iff ih)

/-- Being the same as a plain value is being that value. -/
theorem eq_of_same_plain (hb : b.isPlain = true) (h : same a b = true) : a = b := by
  cases same_iff.mp h with
  | plain _ => rfl
  | number _ | list _ _ | vector _ => exact absurd hb (by simp [isPlain])

end Same

/-! ### Being equal -/

/-- A text and a reference with the same letters. -/
inductive SameLetters : Value → Value → Prop
  | text (s : String) : SameLetters (text s) (reference s)
  | reference (s : String) : SameLetters (reference s) (text s)

section Equals

variable {a b c : Value}

theorem SameLetters.symm (h : SameLetters a b) : SameLetters b a := by
  cases h with
  | text s => exact .reference s
  | reference s => exact .text s

theorem SameLetters.isPlain (h : SameLetters a b) : a.isPlain = true := by
  cases h with
  | text s => rfl
  | reference s => rfl

theorem SameLetters.not_same (h : SameLetters a b) : same a b = false := by
  cases h with
  | text s => rfl
  | reference s => rfl

/-- Two steps from text to reference lead back. -/
theorem SameLetters.eq_of_trans (hab : SameLetters a b) (hbc : SameLetters b c) : a = c := by
  cases hab with
  | text s => cases hbc; rfl
  | reference s => cases hbc; rfl

theorem equals_iff : equals a b = true ↔ same a b = true ∨ SameLetters a b := by
  constructor
  · intro h
    unfold equals at h
    split at h
    · rw [beq_iff_eq] at h
      exact Or.inr (h ▸ .text _)
    · rw [beq_iff_eq] at h
      exact Or.inr (h ▸ .reference _)
    · exact Or.inl h
  · rintro (h | h)
    · unfold equals
      split
      · exact absurd h (by simp [same])
      · exact absurd h (by simp [same])
      · exact h
    · cases h with
      | text s => exact beq_self_eq_true s
      | reference s => exact beq_self_eq_true s

theorem equals_symm (h : equals a b = true) : equals b a = true := by
  rw [equals_iff] at h ⊢
  exact h.imp (same_symm a) SameLetters.symm

theorem equals_comm (a b : Value) : equals a b = equals b a :=
  Bool.eq_iff_iff.mpr ⟨equals_symm, equals_symm⟩

theorem equals_trans (hab : equals a b = true) (hbc : equals b c = true) : equals a c = true := by
  rw [equals_iff] at hab hbc ⊢
  rcases hab with hab | hab
  · rcases hbc with hbc | hbc
    · exact Or.inl (same_trans a hab hbc)
    · obtain rfl := eq_of_same_plain hbc.isPlain hab
      exact Or.inr hbc
  · rcases hbc with hbc | hbc
    · obtain rfl := eq_of_same_plain hab.symm.isPlain (same_symm b hbc)
      exact Or.inr hab
    · obtain rfl := hab.eq_of_trans hbc
      exact Or.inl (same_iff.mpr (.plain hab.isPlain))

/-- Equality goes beyond being the same for a text and a reference only. -/
theorem equals_ne_same_iff : equals a b ≠ same a b ↔ SameLetters a b := by
  constructor
  · intro hne
    by_contra hletters
    refine hne (Bool.eq_iff_iff.mpr ?_)
    rw [equals_iff, or_iff_left hletters]
  · intro h
    rw [equals_iff.mpr (Or.inr h), h.not_same]
    decide

theorem equals_self_iff : equals a a = true ↔ ¬ HoldsNaN a := by
  have hletters : ¬ SameLetters a a := fun h => nomatch h
  rw [equals_iff, or_iff_left hletters, same_self_iff]

theorem equal_eq_true_iff : equal a b = some (boolean true) ↔ equals a b = true := by
  simp [equal]

end Equals

/--
**Equality is a partial equivalence, and NaN is its only gap.**

Comparing two values always gives a truth value, and the same one in both orders; what
equals an equal is equal.  Values that are the same are equal, and the converse fails for
a text and a reference with the same letters only.  A value equals itself exactly if it
holds no NaN at any depth.
-/
theorem equality_partial_equivalence :
    (∀ a b, ∃ r, equal a b = some (boolean r)) ∧
    (∀ a b, equal a b = equal b a) ∧
    (∀ a b c, equal a b = some (boolean true) → equal b c = some (boolean true) →
      equal a c = some (boolean true)) ∧
    (∀ a b, same a b = true → equal a b = some (boolean true)) ∧
    (∀ a b, equal a b ≠ some (boolean (same a b)) ↔ SameLetters a b) ∧
    ∀ v, equal v v = some (boolean true) ↔ ¬ HoldsNaN v := by
  refine ⟨?_, ?_, ?_, ?_, ?_, ?_⟩
  · intro a b
    exact ⟨equals a b, rfl⟩
  · intro a b
    rw [equal, equals_comm, equal]
  · intro a b c hab hbc
    rw [equal_eq_true_iff] at hab hbc ⊢
    exact equals_trans hab hbc
  · intro a b h
    exact equal_eq_true_iff.mpr (equals_iff.mpr (Or.inl h))
  · intro a b
    rw [equal, ne_eq, Option.some.injEq, boolean.injEq]
    exact equals_ne_same_iff
  · intro v
    rw [equal_eq_true_iff, equals_self_iff]

end DualStack.Value
