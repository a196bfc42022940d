import Mathlib.Data.Nat.Nth
import Mathlib.Data.Nat.Prime.Nth
import Mathlib.Data.Nat.Find
import Mathlib.Tactic.Ring

/-!
# Lib — the Secure Hash Standard

SHA-256 as FIPS 180-4 defines it, on bit strings of any length: the functions and the constants of section 4, the padding
and the blocks of section 5, and the computation of section 6.2.

The constants are what the standard says they are, the first bits of the fractional parts of roots of the first primes;
`rootBits_eq` evaluates them.

* `padding_eq`: how many zeros the padding has.
* `blocks_append`: the blocks of a message are those of its beginning and those of its end.
* `sha256`: the digest.
-/

namespace Blackmount.Lib.Fips180

/-- A 32-bit word. -/
abbrev Word := BitVec 32

/-! ### Functions -/

def ch (x y z : Word) : Word := (x &&& y) ^^^ (~~~x &&& z)

def maj (x y z : Word) : Word := (x &&& y) ^^^ (x &&& z) ^^^ (y &&& z)

def bigSigma0 (x : Word) : Word := x.rotateRight 2 ^^^ x.rotateRight 13 ^^^ x.rotateRight 22

def bigSigma1 (x : Word) : Word := x.rotateRight 6 ^^^ x.rotateRight 11 ^^^ x.rotateRight 25

def smallSigma0 (x : Word) : Word := x.rotateRight 7 ^^^ x.rotateRight 18 ^^^ x >>> 3

def smallSigma1 (x : Word) : Word := x.rotateRight 17 ^^^ x.rotateRight 19 ^^^ x >>> 10

/-! ### Constants -/

/-- The integral part of the `n`th root. -/
def floorRoot (n x : Nat) : Nat := Nat.findGreatest (fun r => r ^ n ≤ x) x

/-- The first 32 bits of the fractional part of the `n`th root of `p`. -/
def rootBits (n p : Nat) : Word := BitVec.ofNat 32 (floorRoot n (p * 2 ^ (32 * n)))

/-- Of the cube root of the `t`th prime. -/
noncomputable def roundConstant (t : Nat) : Word := rootBits 3 (Nat.nth Nat.Prime t)

/-- Of the square root of the `j`th prime. -/
noncomputable def initialWord (j : Nat) : Word := rootBits 2 (Nat.nth Nat.Prime j)

theorem floorRoot_eq {n x r : Nat} (hn : n ≠ 0) (h : r ^ n ≤ x) (h' : x < (r + 1) ^ n) : floorRoot n x = r := by
  have hle : r ≤ x := (Nat.le_self_pow hn r).trans h
  refine le_antisymm ?_ (Nat.le_findGreatest hle h)
  by_contra hlt
  have hspec : floorRoot n x ^ n ≤ x := Nat.findGreatest_spec (P := fun r => r ^ n ≤ x) hle h
  have hpow : (r + 1) ^ n ≤ floorRoot n x ^ n := Nat.pow_le_pow_left (by omega) n
  omega

/-- **A word is the bits of a root** if it is so for some integral part. -/
theorem rootBits_eq {n p : Nat} {w : Word} (hn : n ≠ 0) (a : Nat) (h : (a * 2 ^ 32 + w.toNat) ^ n ≤ p * 2 ^ (32 * n))
    (h' : p * 2 ^ (32 * n) < (a * 2 ^ 32 + w.toNat + 1) ^ n) : rootBits n p = w := by
  rw [rootBits, floorRoot_eq hn h h']
  refine BitVec.eq_of_toNat_eq ?_
  rw [BitVec.toNat_ofNat, Nat.mul_add_mod', Nat.mod_eq_of_lt w.isLt]

/-! ### Padding and blocks -/

/-- The bits of a word, the most significant one first. -/
def bitsOf {w : Nat} (x : BitVec w) : List Bool := (List.range w).map x.getMsbD

/-- The word of 32 bits. -/
def wordOf (bits : List Bool) : Word := (BitVec.ofBoolListBE bits).setWidth 32

theorem padding_exists (l : Nat) : ∃ k, (l + 1 + k) % 512 = 448 := ⟨(959 - l % 512) % 512, by omega⟩

/-- The least number of zeros that fill up a block but for the length. -/
def padding (l : Nat) : Nat := Nat.find (padding_exists l)

theorem padding_eq (l : Nat) : padding l = (959 - l % 512) % 512 := by
  refine (Nat.find_eq_iff (padding_exists l)).mpr ⟨by omega, fun k hk hk' => ?_⟩
  omega

/-- The message, a one, zeros, and the length in 64 bits. -/
def pad (m : List Bool) : List Bool :=
  m ++ true :: (List.replicate (padding m.length) false ++ bitsOf (BitVec.ofNat 64 m.length))

section Blocks

variable {α β : Type*}

/-- The blocks of `n` elements each. -/
def blocks (n : Nat) (l : List α) : List (List α) := (List.range (l.length / n)).map fun i => (l.drop (n * i)).take n

theorem blocks_of_lt {n : Nat} {l : List α} (h : l.length < n) : blocks n l = [] := by
  rw [blocks, Nat.div_eq_of_lt h]
  rfl

/-- **The first block.** -/
theorem blocks_append {n : Nat} (hn : 0 < n) {b l : List α} (hb : b.length = n) : blocks n (b ++ l) = b :: blocks n l := by
  rw [blocks, blocks, List.length_append, hb, Nat.add_div_left _ hn, List.range_succ_eq_map, List.map_cons, List.map_map]
  congr 1
  · rw [Nat.mul_zero, List.drop_zero, List.take_append_of_le_length (by omega), List.take_of_length_le (by omega)]
  · refine List.map_congr_left fun i _ => ?_
    rw [Function.comp_apply, Nat.mul_succ, Nat.add_comm, ← List.drop_drop, List.drop_append_of_le_length (by omega),
      List.drop_of_length_le (Nat.le_of_eq hb), List.nil_append]

end Blocks

/-! ### The computation -/

/-- The eight words of a hash value, and the eight working variables. -/
structure Eight (α : Type) where
  a : α
  b : α
  c : α
  d : α
  e : α
  f : α
  g : α
  h : α
  deriving DecidableEq

namespace Eight

variable {α β : Type}

def map (f : α → β) (v : Eight α) : Eight β := ⟨f v.a, f v.b, f v.c, f v.d, f v.e, f v.f, f v.g, f v.h⟩

def toList (v : Eight α) : List α := [v.a, v.b, v.c, v.d, v.e, v.f, v.g, v.h]

def add [Add α] (v v' : Eight α) : Eight α :=
  ⟨v.a + v'.a, v.b + v'.b, v.c + v'.c, v.d + v'.d, v.e + v'.e, v.f + v'.f, v.g + v'.g, v.h + v'.h⟩

theorem toList_map (f : α → β) (v : Eight α) : (v.map f).toList = v.toList.map f := rfl

end Eight

/-- `W_t`, of a block of 512 bits. -/
def schedule (m : List Bool) (t : Nat) : Word :=
  if t < 16 then wordOf ((m.drop (32 * t)).take 32)
  else smallSigma1 (schedule m (t - 2)) + schedule m (t - 7) + smallSigma0 (schedule m (t - 15)) + schedule m (t - 16)

/-- One round, with the constant `k` and the word `w`. -/
def round (v : Eight Word) (k w : Word) : Eight Word :=
  let t1 := v.h + bigSigma1 v.e + ch v.e v.f v.g + k + w
  let t2 := bigSigma0 v.a + maj v.a v.b v.c
  ⟨t1 + t2, v.a, v.b, v.c, v.d + t1, v.e, v.f, v.g⟩

/-- The hash value after one more block. -/
noncomputable def compress (v : Eight Word) (m : List Bool) : Eight Word :=
  ((List.range 64).foldl (fun u t => round u (roundConstant t) (schedule m t)) v).add v

noncomputable def initialHash : Eight Word :=
  ⟨initialWord 0, initialWord 1, initialWord 2, initialWord 3, initialWord 4, initialWord 5, initialWord 6, initialWord 7⟩

/-- **SHA-256** of a bit string. -/
noncomputable def sha256 (m : List Bool) : List Bool :=
  ((blocks 512 (pad m)).foldl compress initialHash).toList.flatMap bitsOf

end Blackmount.Lib.Fips180
