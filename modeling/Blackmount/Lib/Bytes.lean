import Mathlib.Logic.Function.Basic
import Mathlib.Tactic.Ring

/-!
# Lib — byte memory

A piece of memory is a function from offsets to bytes; a buffer of `n` bytes is its part below `n`.
Little-endian words are read and written in place, and `slice` and `splice` copy ranges out of and
into a piece of memory, as `memcpy` does.

* `rd64_wr64`, `rd32_wr32`, `rd16_wr16`: a word reads back, reduced to its width.
* `rd32_congr`, `rd16_congr`: a word depends on its own bytes alone; the frame rules
  (`rd32_wr32_ne`, `rd32_splice_out`, …) follow from it.
* `slice_splice`, `splice_slice`: copying in and out.
-/

namespace Blackmount.Lib

abbrev Bytes := Nat → UInt8

def byteOf (v : Nat) : UInt8 := UInt8.ofNat v

theorem byteOf_toNat (v : Nat) : (byteOf v).toNat = v % 256 := by
  simp [byteOf]

def rd16 (b : Bytes) (o : Nat) : Nat := (b o).toNat + 256 * (b (o + 1)).toNat

def rd32 (b : Bytes) (o : Nat) : Nat := rd16 b o + 65536 * rd16 b (o + 2)

def wr8 (b : Bytes) (o v : Nat) : Bytes := Function.update b o (byteOf v)

def wr16 (b : Bytes) (o v : Nat) : Bytes := wr8 (wr8 b o v) (o + 1) (v / 256)

def wr32 (b : Bytes) (o v : Nat) : Bytes := wr16 (wr16 b o v) (o + 2) (v / 65536)

/-! ### Words -/

theorem rd16_lt (b : Bytes) (o : Nat) : rd16 b o < 65536 := by
  have h0 := (b o).toNat_lt
  have h1 := (b (o + 1)).toNat_lt
  simp only [rd16]
  omega

theorem rd32_lt (b : Bytes) (o : Nat) : rd32 b o < 2 ^ 32 := by
  have h0 := rd16_lt b o
  have h1 := rd16_lt b (o + 2)
  simp only [rd32]
  omega

variable {o p j : Nat}

theorem rd16_congr {b b' : Bytes} (h : ∀ j, o ≤ j → j < o + 2 → b j = b' j) :
    rd16 b o = rd16 b' o := by
  simp only [rd16, h o le_rfl (by omega), h (o + 1) (by omega) (by omega)]

theorem rd32_congr {b b' : Bytes} (h : ∀ j, o ≤ j → j < o + 4 → b j = b' j) :
    rd32 b o = rd32 b' o := by
  have h0 : rd16 b o = rd16 b' o := rd16_congr fun j h1 h2 => h j h1 (by omega)
  have h2 : rd16 b (o + 2) = rd16 b' (o + 2) := rd16_congr fun j h1 h2 => h j (by omega) (by omega)
  simp only [rd32, h0, h2]

theorem wr8_ne (b : Bytes) (v : Nat) (h : j ≠ o) : wr8 b o v j = b j := by
  simp [wr8, h]

theorem wr16_out (b : Bytes) (v : Nat) (h : j < o ∨ o + 2 ≤ j) : wr16 b o v j = b j := by
  simp only [wr16]
  rw [wr8_ne _ _ (by omega), wr8_ne _ _ (by omega)]

theorem wr32_out (b : Bytes) (v : Nat) (h : j < o ∨ o + 4 ≤ j) : wr32 b o v j = b j := by
  simp only [wr32]
  rw [wr16_out _ _ (by omega), wr16_out _ _ (by omega)]

@[simp] theorem rd16_wr16 (b : Bytes) (o v : Nat) : rd16 (wr16 b o v) o = v % 65536 := by
  have h0 : wr16 b o v o = byteOf v := by simp [wr16, wr8]
  have h1 : wr16 b o v (o + 1) = byteOf (v / 256) := by simp [wr16, wr8]
  simp only [rd16, h0, h1, byteOf_toNat]
  omega

theorem rd16_wr16_ne (b : Bytes) (v : Nat) (h : p + 2 ≤ o ∨ o + 2 ≤ p) :
    rd16 (wr16 b o v) p = rd16 b p :=
  rd16_congr fun _ _ _ => wr16_out _ _ (by omega)

@[simp] theorem rd32_wr32 (b : Bytes) (o v : Nat) : rd32 (wr32 b o v) o = v % 2 ^ 32 := by
  have h0 : rd16 (wr32 b o v) o = v % 65536 := by
    rw [wr32, rd16_wr16_ne _ _ (by omega), rd16_wr16]
  have h2 : rd16 (wr32 b o v) (o + 2) = v / 65536 % 65536 := by rw [wr32, rd16_wr16]
  simp only [rd32, h0, h2]
  omega

theorem rd32_wr32_ne (b : Bytes) (v : Nat) (h : p + 4 ≤ o ∨ o + 4 ≤ p) :
    rd32 (wr32 b o v) p = rd32 b p :=
  rd32_congr fun _ _ _ => wr32_out _ _ (by omega)

theorem rd16_wr32_ne (b : Bytes) (v : Nat) (h : p + 2 ≤ o ∨ o + 4 ≤ p) :
    rd16 (wr32 b o v) p = rd16 b p :=
  rd16_congr fun _ _ _ => wr32_out _ _ (by omega)

theorem rd32_wr16_ne (b : Bytes) (v : Nat) (h : p + 4 ≤ o ∨ o + 2 ≤ p) :
    rd32 (wr16 b o v) p = rd32 b p :=
  rd32_congr fun _ _ _ => wr16_out _ _ (by omega)

def rd64 (b : Bytes) (o : Nat) : Nat := rd32 b o + 2 ^ 32 * rd32 b (o + 4)

def wr64 (b : Bytes) (o v : Nat) : Bytes := wr32 (wr32 b o v) (o + 4) (v / 2 ^ 32)

theorem rd64_lt (b : Bytes) (o : Nat) : rd64 b o < 2 ^ 64 := by
  have h0 := rd32_lt b o
  have h4 := rd32_lt b (o + 4)
  simp only [rd64]
  omega

theorem rd64_congr {b b' : Bytes} (h : ∀ j, o ≤ j → j < o + 8 → b j = b' j) :
    rd64 b o = rd64 b' o := by
  have h0 : rd32 b o = rd32 b' o := rd32_congr fun j h1 h2 => h j h1 (by omega)
  have h4 : rd32 b (o + 4) = rd32 b' (o + 4) := rd32_congr fun j h1 h2 => h j (by omega) (by omega)
  simp only [rd64, h0, h4]

/-- The same bytes at another place. -/
theorem rd64_moved {b b' : Bytes} {o o' : Nat} (h : ∀ j < 8, b (o + j) = b' (o' + j)) : rd64 b o = rd64 b' o' := by
  have hzero : ∀ (b : Bytes) (o : Nat), rd64 b o = rd64 (fun j => b (o + j)) 0 := fun _ _ => rfl
  rw [hzero b, hzero b']
  exact rd64_congr fun j _ hj => h j (by omega)

theorem wr64_out (b : Bytes) (v : Nat) (h : j < o ∨ o + 8 ≤ j) : wr64 b o v j = b j := by
  simp only [wr64]
  rw [wr32_out _ _ (by omega), wr32_out _ _ (by omega)]

@[simp] theorem rd64_wr64 (b : Bytes) (o v : Nat) : rd64 (wr64 b o v) o = v % 2 ^ 64 := by
  have h0 : rd32 (wr64 b o v) o = v % 2 ^ 32 := by
    rw [wr64, rd32_wr32_ne _ _ (by omega), rd32_wr32]
  have h4 : rd32 (wr64 b o v) (o + 4) = v / 2 ^ 32 % 2 ^ 32 := by rw [wr64, rd32_wr32]
  simp only [rd64, h0, h4]
  omega

theorem rd64_wr64_ne (b : Bytes) (v : Nat) (h : p + 8 ≤ o ∨ o + 8 ≤ p) :
    rd64 (wr64 b o v) p = rd64 b p :=
  rd64_congr fun _ _ _ => wr64_out _ _ (by omega)

/-- Writing back what is there. -/
theorem wr16_eq_self (b : Bytes) {o v : Nat} (h : v % 65536 = rd16 b o) : wr16 b o v = b := by
  have h₀ := (b o).toNat_lt
  have h₁ := (b (o + 1)).toNat_lt
  simp only [rd16] at h
  have e₀ : byteOf v = b o := UInt8.toNat_inj.mp (by rw [byteOf_toNat]; omega)
  have e₁ : byteOf (v / 256) = b (o + 1) := UInt8.toNat_inj.mp (by rw [byteOf_toNat]; omega)
  rw [wr16, wr8, wr8, e₀, Function.update_eq_self, e₁, Function.update_eq_self]

/-- The second of two writes to one place stays. -/
theorem wr16_wr16 (b : Bytes) (o v w : Nat) : wr16 (wr16 b o v) o w = wr16 b o w := by
  funext j
  by_cases h₀ : j = o
  · subst h₀
    simp [wr16, wr8]
  by_cases h₁ : j = o + 1
  · subst h₁
    simp [wr16, wr8]
  · rw [wr16_out _ _ (by omega), wr16_out _ _ (by omega), wr16_out _ _ (by omega)]

/-- Writes to two places, in either order. -/
theorem wr16_comm (b : Bytes) (v w : Nat) (h : p + 2 ≤ o ∨ o + 2 ≤ p) :
    wr16 (wr16 b o v) p w = wr16 (wr16 b p w) o v := by
  have hcomm : ∀ (b : Bytes) {o p : Nat} (v w : Nat), o ≠ p → wr8 (wr8 b o v) p w = wr8 (wr8 b p w) o v :=
    fun b o p v w hne => Function.update_comm hne _ _ b
  simp only [wr16]
  rw [hcomm _ _ _ (show o + 1 ≠ p by omega), hcomm b _ _ (show o ≠ p by omega), hcomm _ _ _ (show o + 1 ≠ p + 1 by omega),
    hcomm _ _ _ (show o ≠ p + 1 by omega)]

theorem wr64_rd64 (b : Bytes) (o : Nat) : wr64 b o (rd64 b o) = b := by
  have h₀ := rd16_lt b o
  have h₁ := rd16_lt b (o + 2)
  have h₂ := rd16_lt b (o + 4)
  have h₃ := rd16_lt b (o + 4 + 2)
  have hv : rd64 b o = rd16 b o + 65536 * rd16 b (o + 2) + 2 ^ 32 * (rd16 b (o + 4) + 65536 * rd16 b (o + 4 + 2)) := rfl
  rw [wr64, wr32, wr32, wr16_eq_self b (by rw [hv]; omega), wr16_eq_self b (by rw [hv]; omega),
    wr16_eq_self b (by rw [hv]; omega), wr16_eq_self b (by rw [hv]; omega)]

/-! ### Copying ranges -/

/-- `n` bytes from `o` on, as a buffer of their own. -/
def slice (b : Bytes) (o n : Nat) : Bytes := fun j => if j < n then b (o + j) else 0

/-- `memcpy(b + o, src, n)`. -/
def splice (b : Bytes) (o n : Nat) (src : Bytes) : Bytes :=
  fun j => if o ≤ j ∧ j < o + n then src (j - o) else b j

/-- `memset(b, 0, n)`. -/
def zero (b : Bytes) (n : Nat) : Bytes := splice b 0 n fun _ => 0

theorem splice_in (b : Bytes) {o n j : Nat} (src : Bytes) (h : j < n) :
    splice b o n src (o + j) = src j := by
  simp only [splice]
  rw [if_pos (by omega)]
  congr 1
  omega

theorem splice_out (b : Bytes) {o n j : Nat} (src : Bytes) (h : j < o ∨ o + n ≤ j) :
    splice b o n src j = b j := by
  simp only [splice]
  rw [if_neg (by omega)]

theorem slice_splice (b : Bytes) (o n : Nat) {src : Bytes} (h : ∀ j, n ≤ j → src j = 0) :
    slice (splice b o n src) o n = src := by
  funext j
  simp only [slice]
  split
  · next hj => exact splice_in b src hj
  · next hj => exact (h j (by omega)).symm

theorem slice_congr {b b' : Bytes} {o n : Nat} (h : ∀ j, o ≤ j → j < o + n → b j = b' j) :
    slice b o n = slice b' o n := by
  funext j
  simp only [slice]
  split
  · exact h _ (by omega) (by omega)
  · rfl

theorem slice_zero_above (b : Bytes) (o n : Nat) : ∀ j, n ≤ j → slice b o n j = 0 := fun j h => by
  simp only [slice]
  rw [if_neg (by omega)]

theorem rd16_slice (b : Bytes) {o n k : Nat} (h : k + 2 ≤ n) : rd16 (slice b o n) k = rd16 b (o + k) := by
  simp only [rd16, slice]
  rw [if_pos (by omega), if_pos (by omega)]
  rfl

theorem rd32_slice (b : Bytes) {o n k : Nat} (h : k + 4 ≤ n) : rd32 (slice b o n) k = rd32 b (o + k) := by
  simp only [rd32]
  rw [rd16_slice b (by omega), rd16_slice b (by omega)]
  rfl

theorem rd32_zero (b : Bytes) {n o : Nat} (h : o + 4 ≤ n) : rd32 (zero b n) o = 0 := by
  have hz : ∀ j, j < n → zero b n j = 0 := fun j hj => by
    have := splice_in b (o := 0) (n := n) (j := j) (fun _ => 0) hj
    simpa [zero] using this
  simp only [rd32, rd16, hz o (by omega), hz (o + 1) (by omega), hz (o + 2) (by omega),
    hz (o + 2 + 1) (by omega)]
  rfl

/-- A buffer of `n` bytes. -/
@[ext] structure Buf (n : Nat) where
  bytes : Bytes
  sized : ∀ j, n ≤ j → bytes j = 0

namespace Buf

variable {n : Nat}

theorem eq_iff (r r' : Buf n) : (∀ j, j < n → r.bytes j = r'.bytes j) ↔ r = r' := by
  constructor
  · intro h
    refine Buf.ext (funext fun j => ?_)
    by_cases hj : j < n
    · exact h j hj
    · rw [r.sized j (by omega), r'.sized j (by omega)]
  · rintro rfl j -
    rfl

instance : DecidableEq (Buf n) := fun r r' => decidable_of_iff _ (eq_iff r r')

/-- The `n` bytes at offset `o`. -/
def read (b : Bytes) (o : Nat) : Buf n := ⟨slice b o n, slice_zero_above b o n⟩

def zeros : Buf n := ⟨fun _ => 0, fun _ _ => rfl⟩

def set16 (r : Buf n) (o v : Nat) (h : o + 2 ≤ n := by decide) : Buf n :=
  ⟨wr16 r.bytes o v, fun j hj => by rw [wr16_out _ _ (by omega)]; exact r.sized j hj⟩

def set32 (r : Buf n) (o v : Nat) (h : o + 4 ≤ n) : Buf n :=
  ⟨wr32 r.bytes o v, fun j hj => by rw [wr32_out _ _ (by omega)]; exact r.sized j hj⟩

theorem set16_set16 (r : Buf n) (o v w : Nat) (h : o + 2 ≤ n) : (r.set16 o v h).set16 o w h = r.set16 o w h :=
  Buf.ext (wr16_wr16 _ _ _ _)

theorem set16_comm (r : Buf n) (v w : Nat) (ho : o + 2 ≤ n) (hp : p + 2 ≤ n) (h : p + 2 ≤ o ∨ o + 2 ≤ p) :
    (r.set16 o v ho).set16 p w hp = (r.set16 p w hp).set16 o v ho := Buf.ext (wr16_comm _ _ _ h)

theorem set16_eq_self (r : Buf n) {o v : Nat} (h : o + 2 ≤ n) (hv : v % 65536 = rd16 r.bytes o) : r.set16 o v h = r :=
  Buf.ext (wr16_eq_self _ hv)

/-- A buffer copied into memory reads back. -/
theorem read_splice (b : Bytes) (o : Nat) (r : Buf n) : read (splice b o n r.bytes) o = r :=
  Buf.ext (slice_splice b o n r.sized)

theorem read_congr {b b' : Bytes} (h : ∀ j, o ≤ j → j < o + n → b j = b' j) :
    (read b o : Buf n) = read b' o :=
  Buf.ext (slice_congr h)

end Buf

end Blackmount.Lib
