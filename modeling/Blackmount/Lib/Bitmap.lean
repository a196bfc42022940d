import Blackmount.Lib.Bytes
import Mathlib.Data.Finset.Card
import Mathlib.Algebra.Order.Group.Nat

/-!
# Lib — bitmaps in byte memory

Bit `i` of a bitmap is bit `i % 8` of byte `i / 8`.  `clearBits b n` is the set of the clear bits
below `n`; setting a clear bit takes it out of the set, clearing a set bit puts it in.
-/

namespace Blackmount.Lib

def bitMask (i : Nat) : UInt8 := 1 <<< byteOf (i % 8)

def testBit (b : Bytes) (i : Nat) : Bool := b (i / 8) &&& bitMask i != 0

def setBit (b : Bytes) (i : Nat) : Bytes := Function.update b (i / 8) (b (i / 8) ||| bitMask i)

def clearBit (b : Bytes) (i : Nat) : Bytes := Function.update b (i / 8) (b (i / 8) &&& ~~~bitMask i)

theorem bitMask_toBitVec (i : Nat) : (bitMask i).toBitVec = BitVec.twoPow 8 (i % 8) := by
  have h : i % 8 < 8 := Nat.mod_lt _ (by decide)
  have hall : ∀ k : Fin 8, (1 <<< byteOf k.val : UInt8).toBitVec = BitVec.twoPow 8 k.val := by decide
  exact hall ⟨i % 8, h⟩

theorem testBit_eq (b : Bytes) (i : Nat) : testBit b i = (b (i / 8)).toBitVec.getLsbD (i % 8) := by
  have h : i % 8 < 8 := Nat.mod_lt _ (by decide)
  have hne : BitVec.twoPow 8 (i % 8) ≠ 0#8 := by
    intro e
    have := congrArg (fun v => v.getLsbD (i % 8)) e
    simp [h] at this
  have hb : (b (i / 8) &&& bitMask i).toBitVec =
      if (b (i / 8)).toBitVec.getLsbD (i % 8) then BitVec.twoPow 8 (i % 8) else 0#8 := by
    rw [UInt8.toBitVec_and, bitMask_toBitVec, BitVec.and_twoPow]
  simp only [testBit]
  cases hbit : (b (i / 8)).toBitVec.getLsbD (i % 8) with
  | true =>
      rw [hbit, if_pos rfl] at hb
      simp only [bne_iff_ne, ne_eq]
      intro e
      rw [e] at hb
      exact hne hb.symm
  | false =>
      rw [hbit] at hb
      simp only [bne_eq_false_iff_eq]
      exact UInt8.toBitVec_inj.mp (by simpa using hb)

theorem testBit_setBit (b : Bytes) (i j : Nat) :
    testBit (setBit b i) j = (decide (j = i) || testBit b j) := by
  have hi : i % 8 < 8 := Nat.mod_lt _ (by decide)
  simp only [testBit_eq, setBit]
  by_cases hq : j / 8 = i / 8
  · rw [hq, Function.update_self, UInt8.toBitVec_or, bitMask_toBitVec, BitVec.getLsbD_or]
    by_cases hr : j % 8 = i % 8
    · have : j = i := by omega
      subst this
      simp [hi]
    · have : j ≠ i := fun e => hr (by rw [e])
      simp [this, Ne.symm hr]
  · have : j ≠ i := fun e => hq (by rw [e])
    rw [Function.update_of_ne hq]
    simp [this]

theorem testBit_clearBit (b : Bytes) (i j : Nat) :
    testBit (clearBit b i) j = (decide (j ≠ i) && testBit b j) := by
  have hi : i % 8 < 8 := Nat.mod_lt _ (by decide)
  have hj : j % 8 < 8 := Nat.mod_lt _ (by decide)
  simp only [testBit_eq, clearBit]
  by_cases hq : j / 8 = i / 8
  · rw [hq, Function.update_self, UInt8.toBitVec_and, UInt8.toBitVec_not, bitMask_toBitVec,
      BitVec.getLsbD_and, BitVec.getLsbD_not]
    by_cases hr : j % 8 = i % 8
    · have : j = i := by omega
      subst this
      simp [hi]
    · have : j ≠ i := fun e => hr (by rw [e])
      simp [this, hr, hj]
  · have : j ≠ i := fun e => hq (by rw [e])
    rw [Function.update_of_ne hq]
    simp [this]

variable {b b' : Bytes}

/-- The bits are the bitmap. -/
theorem eq_of_testBit (h : ∀ i, testBit b i = testBit b' i) : b = b' := by
  funext j
  refine UInt8.toBitVec_inj.mp (BitVec.eq_of_getLsbD_eq fun k hk => ?_)
  have hbit := h (8 * j + k)
  have hdiv : (8 * j + k) / 8 = j := by omega
  have hmod : (8 * j + k) % 8 = k := by omega
  rwa [testBit_eq, testBit_eq, hdiv, hmod] at hbit

/-- Bit `i` is given a value. -/
def writeBit (v : Bool) (b : Bytes) (i : Nat) : Bytes := if v then setBit b i else clearBit b i

theorem testBit_writeBit (v : Bool) (b : Bytes) (i j : Nat) :
    testBit (writeBit v b i) j = if j = i then v else testBit b j := by
  cases v with
  | true =>
      rw [writeBit, if_pos rfl, testBit_setBit]
      by_cases hj : j = i
      · simp [hj]
      · simp [hj]
  | false =>
      rw [writeBit, if_neg (by decide), testBit_clearBit]
      by_cases hj : j = i
      · simp [hj]
      · simp [hj]

/-- A bit that is written and written back. -/
theorem writeBit_writeBit {i : Nat} {v : Bool} (h : testBit b i = !v) : writeBit (!v) (writeBit v b i) i = b := by
  refine eq_of_testBit fun j => ?_
  rw [testBit_writeBit, testBit_writeBit]
  by_cases hj : j = i
  · rw [if_pos hj, hj, h]
  · rw [if_neg hj, if_neg hj]

/-! ### The clear bits -/

/-- The clear bits below `n`. -/
def clearBits (b : Bytes) (n : Nat) : Finset Nat := (Finset.range n).filter fun i => testBit b i = false

theorem mem_clearBits {n i : Nat} :
    i ∈ clearBits b n ↔ i < n ∧ testBit b i = false := by
  simp [clearBits]

theorem clearBits_setBit (b : Bytes) (n i : Nat) : clearBits (setBit b i) n = (clearBits b n).erase i := by
  ext j
  simp only [mem_clearBits, Finset.mem_erase, testBit_setBit, Bool.or_eq_false_iff, decide_eq_false_iff_not]
  tauto

theorem clearBits_clearBit (b : Bytes) {n i : Nat} (h : i < n) :
    clearBits (clearBit b i) n = insert i (clearBits b n) := by
  ext j
  simp only [mem_clearBits, Finset.mem_insert, testBit_clearBit, Bool.and_eq_false_iff,
    decide_eq_false_iff_not, not_not]
  constructor
  · rintro ⟨hj, rfl | hb⟩
    · exact .inl rfl
    · exact .inr ⟨hj, hb⟩
  · rintro (rfl | ⟨hj, hb⟩)
    · exact ⟨h, .inl rfl⟩
    · exact ⟨hj, .inr hb⟩

/-- One clear bit fewer, or one more. -/
theorem card_clearBits_writeBit {n i : Nat} {v : Bool} (hi : i < n) (h : testBit b i = !v) :
    (clearBits (writeBit v b i) n).card + (if v then 1 else 0) = (clearBits b n).card + if v then 0 else 1 := by
  cases v with
  | true =>
      have hmem : i ∈ clearBits b n := mem_clearBits.mpr ⟨hi, h⟩
      have hpos := Finset.card_pos.mpr ⟨i, hmem⟩
      rw [writeBit, if_pos rfl, clearBits_setBit, Finset.card_erase_of_mem hmem, if_pos rfl, if_pos rfl]
      omega
  | false =>
      have hnot : i ∉ clearBits b n := fun hmem => by
        rw [(mem_clearBits.mp hmem).2] at h
        cases h
      rw [writeBit, if_neg (by decide), clearBits_clearBit b hi, Finset.card_insert_of_notMem hnot, if_neg (by decide),
        if_neg (by decide), Nat.add_zero]

theorem clearBits_congr {n : Nat} (h : ∀ i, i < n → testBit b' i = testBit b i) :
    clearBits b' n = clearBits b n := by
  ext i
  simp only [mem_clearBits]
  constructor
  · rintro ⟨hi, hb⟩
    exact ⟨hi, by rw [← h i hi]; exact hb⟩
  · rintro ⟨hi, hb⟩
    exact ⟨hi, by rw [h i hi]; exact hb⟩

/-- The first clear bit below `n`, as a loop from 0 finds it. -/
def firstClear (b : Bytes) (n : Nat) : Option Nat := (List.range n).find? fun i => !testBit b i

theorem firstClear_some {n i : Nat} (h : firstClear b n = some i) : i ∈ clearBits b n := by
  have hb := List.find?_some h
  have hm := List.mem_of_find?_eq_some h
  simp only [Bool.not_eq_eq_eq_not, Bool.not_true] at hb
  exact mem_clearBits.mpr ⟨List.mem_range.mp hm, hb⟩

theorem firstClear_none {n : Nat} (h : firstClear b n = none) : clearBits b n = ∅ := by
  ext i
  simp only [mem_clearBits, Finset.notMem_empty, iff_false, not_and]
  intro hi hb
  have := List.find?_eq_none.mp h i (List.mem_range.mpr hi)
  simp [hb] at this

theorem firstClear_lowest {n i j : Nat} (h : firstClear b n = some i)
    (hj : j ∈ clearBits b n) : i ≤ j := by
  by_contra hlt
  have := (List.find?_range_eq_some.mp h).2.2 j (by omega)
  rw [(mem_clearBits.mp hj).2] at this
  cases this

/-! ### The set bits -/

theorem testBit_congr {i : Nat} (h : b' (i / 8) = b (i / 8)) : testBit b' i = testBit b i := by
  simp only [testBit, h]

/-- The set bits below `n`. -/
def setBits (b : Bytes) (n : Nat) : Finset Nat := (Finset.range n).filter fun i => testBit b i = true

theorem card_setBits_add_clearBits (b : Bytes) (n : Nat) :
    (setBits b n).card + (clearBits b n).card = n := by
  have h := Finset.card_filter_add_card_filter_not (s := Finset.range n) fun i => testBit b i = true
  simpa [setBits, clearBits] using h

end Blackmount.Lib
