/-
What an index picks.

An index picks an element, if it is a number that, cut toward zero, is the position
of one, or a part of the sequence, if it is a pair of such numbers in order.  `Picks`
says so in terms of the numbers the doubles stand for, and `Indexed` adds that an
index which picks nothing yields `nil`.  Positions are numbers of 64 bits, and the
largest stands for every number that is larger still, infinity included; no sequence
is so long that it would be the position of an element (`position?_eq_some_iff`).

A range is read by its first two members only, whatever follows them.  So a longer
list or vector picks what its first two members pick, instead of nothing, and that
is the only way in which indexing departs from `Indexed`.
-/
import DualStack.Proofs.Truncation
import DualStack.Value.Collection

namespace DualStack.Value

open Binary Float.Model

/-- A number is not negative, and cut toward zero it is `n`. -/
def Cuts (x : Float) (n : Nat) : Prop :=
  ∃ a : ℚ, Denotes x.toModel.unpack a ∧ 0 ≤ a ∧ ⌊a⌋₊ = n

/-- A value holds a sequence: these are its elements, and its size is how many they are. -/
structure Holds (v : Value) (e : List Value) : Prop where
  elements : v.elements? = some e
  size : v.size? = some e.length

/-- What an index picks from a value that holds `e`: an element, or a value of the same kind that
holds some of the elements. -/
inductive Picks (c : Value) (e : List Value) : Value → Value → Prop
  | element {x : Float} {n : Nat} {v : Value} (hx : Cuts x n) (hv : e[n]? = some v) :
      Picks c e (number x) v
  | part {i : Value} {x y : Float} {a b : Nat} {w : Value} (hi : i.members = [number x, number y])
      (hx : Cuts x a) (hy : Cuts y b) (hle : a ≤ b) (hlast : b ≤ e.length)
      (hkind : w.typeName = c.typeName) (hpart : Holds w (e.extract a b)) :
      Picks c e i w

/-- What an index yields: what it picks, and `nil` if it picks nothing. -/
def Indexed (c : Value) (e : List Value) (i w : Value) : Prop :=
  Picks c e i w ∨ w = nil ∧ ∀ v, ¬ Picks c e i v

/-- An index without what follows its first two members. -/
def firstTwo : Value → Value
  | list chain => list (.ofList (chain.cells.take 2))
  | vector elements => vector (elements.take 2)
  | i => i

/-! ### Positions -/

section Positions

variable {x : Float} {p : Nat}

theorem zero_le_iff {a : ℚ} (hx : Denotes x.toModel.unpack a) : 0.0 ≤ x ↔ 0 ≤ a :=
  Denotes.le_iff (x := 0.0) (.zero .positive) hx

/-- What is at least zero and below the largest position is finite. -/
theorem exists_denotes_of_position (hle : 0.0 ≤ x) (hp : x.toUInt64.toNat < 2 ^ 64 - 1) :
    ∃ a, Denotes x.toModel.unpack a := by
  have hcompare : decide ((Option.any (·.isLE)
      (UnpackedFloat.compare (0.0 : Float).toModel.unpack x.toModel.unpack)) = true) = true := hle
  have hnat : x.toModel.unpack.toUInt64.toNat < 2 ^ 64 - 1 := hp
  refine exists_denotes ?_
  show x.toModel.unpack.isFinite = true
  cases hunpack : x.toModel.unpack with
  | notANumber =>
      rw [hunpack] at hcompare
      exact absurd hcompare (by decide)
  | infinity s =>
      rw [hunpack] at hcompare hnat
      cases s with
      | negative => exact absurd hcompare (by decide)
      | positive => exact absurd hnat (by decide)
  | zero s => rfl
  | finite s m q hm => rfl

/-- **Below the largest position, a number is the position that it is cut to.** -/
theorem position?_eq_some_iff (hp : p < 2 ^ 64 - 1) : position? x = some p ↔ Cuts x p := by
  unfold position?
  constructor
  · intro h
    by_cases hle : 0.0 ≤ x
    · rw [if_pos hle, Option.some.injEq] at h
      obtain ⟨a, ha⟩ := exists_denotes_of_position hle (h ▸ hp)
      have hnonneg := (zero_le_iff ha).mp hle
      have hnat : x.toUInt64.toNat = min ⌊a⌋₊ (2 ^ 64 - 1) := ha.toNat_toUInt64 hnonneg
      exact ⟨a, ha, hnonneg, by omega⟩
    · rw [if_neg hle] at h
      exact absurd h (by simp)
  · rintro ⟨a, ha, hnonneg, rfl⟩
    have hnat : x.toUInt64.toNat = min ⌊a⌋₊ (2 ^ 64 - 1) := ha.toNat_toUInt64 hnonneg
    rw [if_pos ((zero_le_iff ha).mpr hnonneg), hnat, min_eq_left hp.le]

end Positions

/-! ### Selections -/

section Selections

variable {i : Value} {n a b : Nat}

@[simp]
theorem members_firstTwo (i : Value) : i.firstTwo.members = i.members.take 2 := by
  cases i <;> simp [firstTwo, members]

theorem firstTwo_eq_number {x : Float} (h : i.firstTwo = number x) : i = number x := by
  cases i <;> simp_all [firstTwo]

theorem range?_take_two (vs : List Value) : range? (vs.take 2) = range? vs := by
  match vs with
  | [] => rfl
  | [_] => rfl
  | first :: second :: more => cases first <;> cases second <;> rfl

theorem selection?_firstTwo (i : Value) : i.firstTwo.selection? = i.selection? := by
  cases i with
  | list chain =>
      show range? (list chain).firstTwo.members = range? chain.cells
      rw [members_firstTwo]
      exact range?_take_two chain.cells
  | vector elements => exact range?_take_two elements
  | _ => rfl

theorem of_range?_eq_some {vs : List Value} {s : Selection} (h : range? vs = some s) :
    ∃ x y more a b, vs = number x :: number y :: more ∧ position? x = some a ∧
      position? y = some b ∧ s = .range a b := by
  unfold range? at h
  split at h
  · rename_i x y more
    split at h
    · rename_i a b hx hy
      cases h
      exact ⟨x, y, more, a, b, rfl, hx, hy, rfl⟩
    · exact absurd h (by simp)
  · exact absurd h (by simp)

theorem of_selection?_single (h : i.selection? = some (.single n)) :
    ∃ x, i = number x ∧ position? x = some n := by
  unfold selection? at h
  split at h
  · rename_i x
    obtain ⟨p, hp, hsingle⟩ := Option.map_eq_some_iff.mp h
    cases hsingle
    exact ⟨x, rfl, hp⟩
  · obtain ⟨_, _, _, _, _, -, -, -, hrange⟩ := of_range?_eq_some h
    exact absurd hrange (by simp)

theorem of_selection?_range (h : i.selection? = some (.range a b)) :
    ∃ x y more, i.members = number x :: number y :: more ∧
      position? x = some a ∧ position? y = some b := by
  unfold selection? at h
  split at h
  · obtain ⟨p, -, hsingle⟩ := Option.map_eq_some_iff.mp h
    exact absurd hsingle (by simp)
  · obtain ⟨x, y, more, _, _, hmembers, hx, hy, hrange⟩ := of_range?_eq_some h
    cases hrange
    exact ⟨x, y, more, hmembers, hx, hy⟩

theorem selection?_range {x y : Float} {more : List Value}
    (hi : i.members = number x :: number y :: more) (hx : position? x = some a)
    (hy : position? y = some b) : i.selection? = some (.range a b) := by
  unfold selection?
  split
  · exact absurd hi (by simp [members])
  · rw [hi]
    simp only [range?, hx, hy]

end Selections

/-! ### Indexing -/

section Indexing

variable {c i w : Value} {e : List Value}

/-- What a selection takes from a value that holds `e`. -/
def Takes (c : Value) (e : List Value) : Selection → Value → Prop
  | .single n, v => e[n]? = some v
  | .range a b, w =>
    a ≤ b ∧ b ≤ e.length ∧ w.typeName = c.typeName ∧ Holds w (e.extract a b)

theorem holds_ofList (e : List Value) : Holds (list (.ofList e)) e where
  elements := congrArg some (Chain.cells_ofList e)
  size := by
    have hcounted := Chain.counted_ofList e
    rw [Chain.Counted, Chain.cells_ofList] at hcounted
    exact congrArg some hcounted

/-- Whatever holds a sequence is indexed as the sequence, and cuts values of its own kind out of
it. -/
theorem Holds.exists_slice (h : Holds c e) :
    ∃ slice : Nat → Nat → Value,
      (∀ i, c.index? i = some (select e.length (e[·]?) slice i.selection?)) ∧
      ∀ a b, (slice a b).typeName = c.typeName ∧ Holds (slice a b) (e.extract a b) := by
  cases c with
  | blob bytes =>
      cases h.elements
      refine ⟨fun a b => blob ((bytes.take b).drop a), fun i => ?_, fun a b => ⟨rfl, ?_⟩⟩
      · simp only [index?, List.length_map, List.getElem?_map]
      · rw [List.extract_eq_drop_take', ← List.map_take, ← List.map_drop]
        exact ⟨rfl, by simp [size?]⟩
  | list chain =>
      cases h.elements
      refine ⟨fun a b => list (chain.slice a b), fun i => ?_, fun a b => ⟨rfl, ?_⟩⟩
      · have hlength : chain.length = chain.cells.length := Option.some.inj h.size
        rw [index?, hlength]
        rfl
      · rw [List.extract_eq_take_drop]
        exact holds_ofList _
  | vector elements =>
      cases h.elements
      refine ⟨fun a b => vector ((e.take b).drop a), fun i => rfl, fun a b => ⟨rfl, ?_⟩⟩
      rw [List.extract_eq_drop_take']
      exact ⟨rfl, rfl⟩
  | _ => exact absurd h.elements (by simp [elements?])

/-- **A selection is taken if it can be, and gives `nil` if it cannot.** -/
theorem index?_takes {s : Selection} (hc : Holds c e) (h : i.selection? = some s) :
    ∃ w, c.index? i = some w ∧ (Takes c e s w ∨ w = nil ∧ ∀ v, ¬ Takes c e s v) := by
  obtain ⟨slice, hindex, hslice⟩ := hc.exists_slice
  refine ⟨_, hindex i, ?_⟩
  rw [h]
  cases s with
  | single n =>
      simp only [select, Takes]
      cases e[n]? with
      | none => exact Or.inr ⟨rfl, fun v => by simp⟩
      | some item => exact Or.inl rfl
  | range a b =>
      simp only [select, Takes]
      by_cases hbounds : a ≤ b ∧ b ≤ e.length
      · rw [if_pos hbounds]
        exact Or.inl ⟨hbounds.1, hbounds.2, hslice a b⟩
      · rw [if_neg hbounds]
        exact Or.inr ⟨rfl, fun v hv => hbounds ⟨hv.1, hv.2.1⟩⟩

/-- **A whole number picks the element at its position.** The largest position lies outside of
every sequence whose length is a number of 64 bits, so it does not matter what it stands for. -/
theorem Holds.index?_number {x : Float} {k : Nat} (h : Holds c e) (hfits : e.length < 2 ^ 64)
    (hx : Denotes x.toModel.unpack k) : c.index? (number x) = some (e[k]?.getD nil) := by
  obtain ⟨slice, hindex, -⟩ := h.exists_slice
  have hnonneg : (0 : ℚ) ≤ k := Nat.cast_nonneg k
  have hnat : x.toUInt64.toNat = min k (2 ^ 64 - 1) := by
    have hfloor : x.toUInt64.toNat = min ⌊(k : ℚ)⌋₊ (2 ^ 64 - 1) := hx.toNat_toUInt64 hnonneg
    rwa [Nat.floor_natCast] at hfloor
  have hselect : e[min k (2 ^ 64 - 1)]? = e[k]? := by
    rcases Nat.lt_or_ge k (2 ^ 64 - 1) with hlt | hge
    · rw [min_eq_left hlt.le]
    · rw [min_eq_right hge, List.getElem?_eq_none (by omega), List.getElem?_eq_none (by omega)]
  rw [hindex, selection?, position?, if_pos ((zero_le_iff hx).mpr hnonneg), hnat, ← hselect]
  rfl

theorem length_members_of_picks (h : Picks c e i w) : i.members.length ≤ 2 := by
  cases h with
  | element hx hv => exact Nat.zero_le 2
  | part hi => rw [hi]; exact le_rfl

theorem picks_firstTwo_iff (hshort : i.members.length ≤ 2) :
    Picks c e i.firstTwo w ↔ Picks c e i w := by
  have hmembers : i.firstTwo.members = i.members := by
    rw [members_firstTwo, List.take_of_length_le hshort]
  constructor
  · intro h
    generalize hj : i.firstTwo = j at h
    cases h with
    | element hx hv =>
        rw [firstTwo_eq_number hj]
        exact .element hx hv
    | part hi hx hy hle hlast hkind hpart =>
        rw [← hj, hmembers] at hi
        exact .part hi hx hy hle hlast hkind hpart
  · intro h
    cases h with
    | element hx hv => exact .element hx hv
    | part hi hx hy hle hlast hkind hpart =>
        exact .part (hmembers.trans hi) hx hy hle hlast hkind hpart

/-- What an index picks is what its selection takes. -/
theorem picks_iff (hfits : e.length < 2 ^ 64 - 1) (hshort : i.members.length ≤ 2) :
    Picks c e i w ↔ ∃ s, i.selection? = some s ∧ Takes c e s w := by
  constructor
  · intro h
    cases h with
    | @element x n _ hx hv =>
        have hn : n < e.length := (List.getElem?_eq_some_iff.mp hv).1
        refine ⟨.single n, ?_, hv⟩
        rw [selection?, (position?_eq_some_iff (by omega)).mpr hx]
        rfl
    | @part _ x y a b _ hi hx hy hle hlast hkind hpart =>
        exact ⟨.range a b, selection?_range hi ((position?_eq_some_iff (by omega)).mpr hx)
          ((position?_eq_some_iff (by omega)).mpr hy), hle, hlast, hkind, hpart⟩
  · rintro ⟨s, hs, htakes⟩
    cases s with
    | single n =>
        obtain ⟨x, rfl, hx⟩ := of_selection?_single hs
        have hn : n < e.length := (List.getElem?_eq_some_iff.mp htakes).1
        exact .element ((position?_eq_some_iff (by omega)).mp hx) htakes
    | range a b =>
        obtain ⟨x, y, more, hi, hx, hy⟩ := of_selection?_range hs
        obtain ⟨hle, hlast, hkind, hpart⟩ := htakes
        obtain rfl : more = [] := by simpa [hi] using hshort
        exact .part hi ((position?_eq_some_iff (by omega)).mp hx)
          ((position?_eq_some_iff (by omega)).mp hy) hle hlast hkind hpart

/-- An index that is no longer than a pair yields what it picks, or `nil`. -/
theorem exists_indexed (hc : Holds c e) (hfits : e.length < 2 ^ 64 - 1)
    (hshort : i.members.length ≤ 2) : ∃ w, c.index? i = some w ∧ Indexed c e i w := by
  unfold Indexed
  simp only [picks_iff hfits hshort]
  cases hs : i.selection? with
  | none =>
      obtain ⟨slice, hindex, -⟩ := hc.exists_slice
      refine ⟨nil, by rw [hindex, hs]; rfl, Or.inr ⟨rfl, ?_⟩⟩
      rintro v ⟨s, hnone, -⟩
      exact absurd hnone (by simp)
  | some s =>
      obtain ⟨w, hw, htakes⟩ := index?_takes hc hs
      refine ⟨w, hw, ?_⟩
      simpa using htakes

theorem index?_firstTwo (hc : Holds c e) : c.index? i.firstTwo = c.index? i := by
  obtain ⟨slice, hindex, -⟩ := hc.exists_slice
  rw [hindex, hindex, selection?_firstTwo]

theorem not_picks_nil_of_long (hlong : ¬ i.members.length ≤ 2) : ¬ Picks c e i.firstTwo nil := by
  intro h
  generalize hj : i.firstTwo = j at h
  cases h with
  | element hx hv =>
      rw [firstTwo_eq_number hj] at hlong
      exact hlong (Nat.zero_le 2)
  | part hi hx hy hle hlast hkind hpart => exact absurd hpart.elements (by simp [elements?])

/--
**Indexing goes by the first two members of a range.**

A value that holds a sequence yields, for every index, what the index picks once it is
cut to its first two members, and `nil` if that picks nothing.  This is what the index
itself yields, unless it is a longer list or vector whose first two members pick something.
-/
theorem range_goes_by_first_two (hc : Holds c e) (hfits : e.length < 2 ^ 64 - 1) (i : Value) :
    ∃ w, c.index? i = some w ∧ Indexed c e i.firstTwo w ∧
      (Indexed c e i w ↔ i.members.length ≤ 2 ∨ ∀ v, ¬ Picks c e i.firstTwo v) := by
  have hcut : i.firstTwo.members.length ≤ 2 := by
    rw [members_firstTwo]
    exact List.length_take_le 2 _
  obtain ⟨w, hw, hindexed⟩ := exists_indexed hc hfits hcut
  rw [index?_firstTwo hc] at hw
  refine ⟨w, hw, hindexed, ?_⟩
  constructor
  · rintro (hpicks | ⟨rfl, -⟩)
    · exact Or.inl (length_members_of_picks hpicks)
    · by_cases hshort : i.members.length ≤ 2
      · exact Or.inl hshort
      · rcases hindexed with hpicks | ⟨-, hnone⟩
        · exact absurd hpicks (not_picks_nil_of_long hshort)
        · exact Or.inr hnone
  · rintro (hshort | hnone)
    · simpa only [Indexed, picks_firstTwo_iff hshort] using hindexed
    · have hnil : w = nil := (hindexed.resolve_left (hnone w)).1
      refine Or.inr ⟨hnil, fun v hpicks => hnone v ?_⟩
      exact (picks_firstTwo_iff (length_members_of_picks hpicks)).mpr hpicks

/-- Two bytes of three, by a list of a number and a fraction. -/
theorem range_goes_by_first_two_blob :
    let c := blob [104, 101, 121]
    let i := collect .list [number 1.0, number 3.9]
    c.index? i = some (blob [101, 121]) ∧
      Indexed c [byte 104, byte 101, byte 121] i (blob [101, 121]) := by
  intro c i
  have hindex : c.index? i = some (blob [101, 121]) := by
    have hx : position? 1.0 = some 1 := by decide +kernel
    have hy : position? 3.9 = some 3 := by decide +kernel
    have hi : i.selection? = some (.range 1 3) := selection?_range rfl hx hy
    rw [index?, hi]
    rfl
  have hc : Holds c [byte 104, byte 101, byte 121] := ⟨rfl, rfl⟩
  obtain ⟨w, hw, -, hindexed⟩ := range_goes_by_first_two hc (by decide) i
  obtain rfl : w = blob [101, 121] := Option.some.inj (hw.symm.trans hindex)
  exact ⟨hindex, hindexed.mpr (Or.inl le_rfl)⟩

/-- A vector of three numbers is no pair and picks nothing, yet it yields what its first two
numbers pick. -/
theorem range_of_three_does_not_yield_nil :
    let c := vector [number 10.0, number 20.0, number 30.0]
    let i := vector [number 0.0, number 1.0, number 2.0]
    (∀ v, ¬ Picks c [number 10.0, number 20.0, number 30.0] i v) ∧
    c.index? i = some (vector [number 10.0]) ∧
    ¬ Indexed c [number 10.0, number 20.0, number 30.0] i (vector [number 10.0]) := by
  intro c i
  have hnone : ∀ v, ¬ Picks c [number 10.0, number 20.0, number 30.0] i v := fun v h =>
    absurd (length_members_of_picks h) (by decide)
  refine ⟨hnone, ?_, ?_⟩
  · have hx : position? 0.0 = some 0 := by decide +kernel
    have hy : position? 1.0 = some 1 := by decide +kernel
    have hi : i.selection? = some (.range 0 1) := selection?_range rfl hx hy
    rw [index?, hi]
    rfl
  · rintro (hpicks | ⟨hnil, -⟩)
    · exact hnone _ hpicks
    · exact absurd hnil (by simp)

end Indexing

end DualStack.Value
