/-
One sequence under every history.

A blob, a list and a vector each stand for a sequence, and what they tell about
themselves (their elements, their size, the element at a position) is read off three
different representations.  `Holds` ties these together for one value.  It holds of
what literals build, an insertion keeps it, and so it holds after any insertions.

What the insertions come to is said once for the whole history (`Grown`): a vector has
the new values behind, a list has them in front and in reverse, and a blob has behind
it those of them that stand for a byte.  The induction is over the history; its step is
one insertion, with the rest of the history still to come.
-/
import DualStack.Machine.Eval
import DualStack.Proofs.Equality
import DualStack.Proofs.Indexing

namespace DualStack.Value

open Binary Float.Model

/-- Values that a history of insertions starts from: a list or a vector of any elements, as a
literal or none at all give them, and a blob. -/
inductive Built : Value → Prop
  | collect (shape : Shape) (e : List Value) : Built (collect shape e)
  | blob (bytes : List UInt8) : Built (blob bytes)

/-- A value stands for a byte: it is that byte, or a number equal to it. -/
inductive StandsFor : Value → UInt8 → Prop
  | byte (b : UInt8) : StandsFor (byte b) b
  | number {x : Float} {b : UInt8} (h : Denotes x.toModel.unpack b.toNat) :
      StandsFor (number x) b

/-- The bytes that some values stand for, where those that stand for none are left out. -/
inductive Bytes : List Value → List UInt8 → Prop
  | nil : Bytes [] []
  | take {new : Value} {news : List Value} {b : UInt8} {bytes : List UInt8}
      (h : StandsFor new b) (hrest : Bytes news bytes) : Bytes (new :: news) (b :: bytes)
  | skip {new : Value} {news : List Value} {bytes : List UInt8}
      (h : ∀ b, ¬ StandsFor new b) (hrest : Bytes news bytes) : Bytes (new :: news) bytes

/-- The sequence that a value comes to hold when some values are inserted one after the other. -/
inductive Grown (news : List Value) : Value → List Value → Prop
  | vector (e : List Value) : Grown news (vector e) (e ++ news)
  | list (chain : Chain Value) : Grown news (list chain) (news.reverse ++ chain.cells)
  | blob (bytes : List UInt8) {more : List UInt8} (h : Bytes news more) :
      Grown news (blob bytes) ((bytes ++ more).map byte)

/-! ### Bytes -/

section Bytes

variable {v : Value} {b : UInt8}

/-- **A blob takes a value as the byte that it stands for.** -/
theorem toByte?_eq_some_iff : v.toByte? = some b ↔ StandsFor v b := by
  constructor
  · intro h
    unfold toByte? at h
    split at h
    · cases h
      exact .byte b
    · split at h
      · rename_i x hx
        cases h
        exact .number (denotes_of_beq (denotes_toFloat x.toUInt8) hx.2.2)
      · exact absurd h (by simp)
    · exact absurd h (by simp)
  · intro h
    cases h with
    | byte b => rfl
    | @number x b hx =>
        have hnonneg : (0 : ℚ) ≤ b.toNat := Nat.cast_nonneg _
        have hle : (b.toNat : ℚ) ≤ 255 := by exact_mod_cast Nat.le_of_lt_succ b.toNat_lt
        have hnat : x.toUInt8.toNat = b.toNat := by
          have hfloor : x.toUInt8.toNat = ⌊(b.toNat : ℚ)⌋₊ := hx.toNat_toUInt8 hnonneg hle
          rwa [Nat.floor_natCast] at hfloor
        have hbyte : x.toUInt8 = b := UInt8.toNat_inj.mp hnat
        rw [toByte?, hbyte, if_pos]
        exact ⟨(zero_le_iff hx).mpr hnonneg, (hx.le_iff denotes_byte_limit).mpr hle,
          ((denotes_toFloat b).beq_iff hx).mpr rfl⟩

end Bytes

/-! ### Insertions -/

section Insertions

variable {v w new : Value} {news e s : List Value}

theorem Built.holds (h : Built v) : ∃ e, Holds v e := by
  cases h with
  | collect shape e =>
      cases shape with
      | list => exact ⟨e, holds_ofList e⟩
      | vector => exact ⟨e, rfl, rfl⟩
  | blob bytes => exact ⟨bytes.map byte, rfl, by simp [size?]⟩

/-- **An insertion keeps the kind of a value, and what it tells about itself together.** -/
theorem Holds.insert (h : Holds v e) (new : Value) :
    ∃ w e', v.insert? new = some w ∧ w.typeName = v.typeName ∧ Holds w e' := by
  cases v with
  | blob bytes => exact ⟨_, _, rfl, rfl, rfl, by simp [size?]⟩
  | list chain =>
      cases h.elements
      have hcounted : chain.Counted := Option.some.inj h.size
      exact ⟨_, _, rfl, rfl, rfl, congrArg some (hcounted.prepend new)⟩
  | vector elements => exact ⟨_, _, rfl, rfl, rfl, rfl⟩
  | _ => exact absurd h.elements (by simp [elements?])

theorem grown_nil (h : Holds v e) : Grown [] v e := by
  cases v with
  | blob bytes =>
      cases h.elements
      simpa using Grown.blob bytes .nil
  | list chain =>
      cases h.elements
      exact .list chain
  | vector elements =>
      cases h.elements
      simpa using @Grown.vector [] e
  | _ => exact absurd h.elements (by simp [elements?])

/-- What grows from a value after an insertion grows from the value before it. -/
theorem Grown.cons (hs : Grown news w s) (h : v.insert? new = some w) :
    Grown (new :: news) v s := by
  cases v with
  | blob bytes =>
      cases h
      generalize hw : Value.blob (bytes ++ new.toByte?.toList) = w at hs
      cases hs with
      | vector _ | list _ => exact absurd hw (by simp)
      | @blob bytes' more hmore =>
          obtain rfl : bytes ++ new.toByte?.toList = bytes' := by simpa using hw
          cases hbyte : new.toByte? with
          | none =>
              have hnone : ∀ b, ¬ StandsFor new b := fun b hb => by
                rw [toByte?_eq_some_iff.mpr hb] at hbyte
                exact absurd hbyte (by simp)
              simpa using Grown.blob bytes (.skip hnone hmore)
          | some b => simpa using Grown.blob bytes (.take (toByte?_eq_some_iff.mp hbyte) hmore)
  | list chain =>
      cases h
      cases hs with
      | list _ => simpa [Chain.prepend] using @Grown.list (new :: news) chain
  | vector elements =>
      cases h
      cases hs with
      | vector _ => simpa using @Grown.vector (new :: news) elements
  | _ => exact absurd h (by simp [insert?])

/-- **Any insertions can be made, and the value holds the sequence they come to.** -/
theorem Holds.insertAll (h : Holds v e) (news : List Value) :
    ∃ w s, news.foldlM insert? v = some w ∧ Grown news v s ∧ w.typeName = v.typeName ∧
      Holds w s := by
  induction news generalizing v e with
  | nil => exact ⟨v, e, rfl, grown_nil h, rfl, h⟩
  | cons new news ih =>
      obtain ⟨u, e', hinsert, hkind, hu⟩ := h.insert new
      obtain ⟨w, s, hrest, hgrown, hkind', hw⟩ := ih hu
      refine ⟨w, s, ?_, hgrown.cons hinsert, hkind'.trans hkind, hw⟩
      rw [List.foldlM_cons, hinsert]
      exact hrest

/-- Two lists are the same if their sequences are, element by element: then they have noted the
same length, so comparing lengths first makes no difference. -/
theorem same_list_iff {c d : Chain Value} {t : List Value} (hc : Holds (list c) s)
    (hd : Holds (list d) t) :
    same (list c) (list d) = true ↔ List.Forall₂ (same · · = true) s t := by
  cases hc.elements
  cases hd.elements
  have hnoted : c.length = c.cells.length := Option.some.inj hc.size
  have hnoted' : d.length = d.cells.length := Option.some.inj hd.size
  rw [same_iff]
  constructor
  · intro h
    cases h with
    | plain h => exact absurd h (by simp [isPlain])
    | list _ h => exact h
  · intro h
    exact .list (by rw [hnoted, hnoted', h.length_eq]) h

/-- A list that has grown is a list, and holds the new values in front. -/
theorem insertAll_list (h : news.foldlM insert? (collect .list e) = some w) :
    ∃ c, w = list c ∧ Holds (list c) (news.reverse ++ e) := by
  obtain ⟨w', s, hw, hgrown, hkind, hholds⟩ := (holds_ofList e).insertAll news
  obtain rfl : w = w' := Option.some.inj (h.symm.trans hw)
  cases w with
  | list c =>
      refine ⟨c, rfl, ?_⟩
      cases hgrown with
      | list _ => rwa [Chain.cells_ofList] at hholds
  | _ => exact absurd hkind (by simp [typeName])

end Insertions

theorem elements_eq_map (body : List Node) : Node.elements body = body.map Node.element := by
  induction body with
  | nil => rfl
  | cons n body ih => rw [Node.elements, ih, List.map_cons]

/--
**Every history describes one sequence.**

Whatever is inserted, one value after the other, into a blob, a list or a vector, it comes to
hold the sequence that has grown from its own: those are its elements, they are counted by its
size, and a whole number finds the element at its place and `nil` behind the last.  Two lists
are the same exactly if their sequences are so element by element.  A literal of either shape
holds one element for each node of its body, in order.
-/
theorem one_sequence_under_any_history :
    (∀ v : Value, Built v → ∀ news : List Value, ∃ w s,
      news.foldlM insert? v = some w ∧ Grown news v s ∧ w.typeName = v.typeName ∧
      w.elements? = some s ∧ w.size? = some s.length ∧
      (s.length < 2 ^ 64 → ∀ (x : Float) (k : Nat), Denotes x.toModel.unpack k →
        w.index? (number x) = some (s[k]?.getD nil))) ∧
    (∀ (e e' news news' : List Value) (w w' : Value),
      news.foldlM insert? (collect .list e) = some w →
      news'.foldlM insert? (collect .list e') = some w' →
      (same w w' = true ↔
        List.Forall₂ (same · · = true) (news.reverse ++ e) (news'.reverse ++ e'))) ∧
    ∀ (shape : Shape) (body : List Node),
      Built (Node.collection shape body).element ∧
      (Node.collection shape body).element.elements? = some (body.map Node.element) ∧
      ∀ test fuel, Eval.node test (fuel + 1) (.collection shape body) =
        Effect.push (Node.collection shape body).element := by
  refine ⟨?_, ?_, ?_⟩
  · intro v hv news
    obtain ⟨e, he⟩ := hv.holds
    obtain ⟨w, s, hw, hgrown, hkind, hs⟩ := he.insertAll news
    exact ⟨w, s, hw, hgrown, hkind, hs.elements, hs.size, fun hfits _ _ hx =>
      hs.index?_number hfits hx⟩
  · intro e e' news news' w w' hw hw'
    obtain ⟨c, rfl, hc⟩ := insertAll_list hw
    obtain ⟨d, rfl, hd⟩ := insertAll_list hw'
    exact same_list_iff hc hd
  · intro shape body
    have hliteral : (Node.collection shape body).element =
        collect shape (body.map Node.element) := by
      rw [Node.element, elements_eq_map]
    refine ⟨?_, ?_, ?_⟩
    · rw [hliteral]
      exact .collect shape _
    · rw [hliteral]
      cases shape with
      | list => exact (holds_ofList _).elements
      | vector => rfl
    · intro test fuel
      rw [Eval.node, Node.element]

/-- Of four values that are inserted into a blob two stand for a byte, and the list of one text
becomes the list of two when the other is inserted. -/
theorem one_sequence_under_any_history_blob_and_list :
    let news := [number 105.0, text "no byte", number 256.0, byte 106]
    (∃ w, news.foldlM insert? (blob [104]) = some w ∧
      w.elements? = some [byte 104, byte 105, byte 106] ∧
      w.index? (number 1.0) = some (byte 105)) ∧
    ∃ w w', [text "a"].foldlM insert? (collect .list [text "b"]) = some w ∧
      [].foldlM insert? (collect .list [text "a", text "b"]) = some w' ∧ same w w' = true := by
  intro news
  obtain ⟨grown, compared, -⟩ := one_sequence_under_any_history
  constructor
  · have hblob : news.foldlM insert? (blob [104]) = some (blob [104, 105, 106]) := by
      have htaken : (number 105.0).toByte? = some 105 := by decide +kernel
      have hskipped : (number 256.0).toByte? = none := by decide +kernel
      have htext : (text "no byte").toByte? = none := rfl
      have hbyte : (byte 106).toByte? = some 106 := rfl
      simp [news, insert?, htaken, hskipped, htext, hbyte]
    obtain ⟨w, s, hw, -, -, hs, -, hindex⟩ := grown _ (.blob [104]) news
    obtain rfl : w = blob [104, 105, 106] := Option.some.inj (hw.symm.trans hblob)
    cases hs
    exact ⟨_, hw, rfl, hindex (by decide) 1.0 1 (by rw [Nat.cast_one]; exact denotes_one)⟩
  · refine ⟨_, _, rfl, rfl, ?_⟩
    rw [compared [text "b"] [text "a", text "b"] [text "a"] [] _ _ rfl rfl]
    exact .cons (by simp [same]) (.cons (by simp [same]) .nil)

end DualStack.Value
