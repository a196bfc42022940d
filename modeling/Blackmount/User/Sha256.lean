import Blackmount.Lib.Fips180
import Mathlib.Tactic.IntervalCases

/-!
# User — SHA-256

`sha256.c`: full blocks are taken from the message where it stands, and the rest is padded in one buffer of 64 bytes, which
is used twice when the length does not fit behind the rest.

* `sha256Transform_eq`: one block.
* `lastBlocks_eq`: the buffer, once or twice, is the end of the padded message.
* `sha256_standard`: the digest is that of FIPS 180-4.
-/

namespace Blackmount.User
open Blackmount.Lib Fips180

/-! ### The code -/

def rotr32 (x n : UInt32) : UInt32 := (x >>> n) ||| (x <<< (32 - n))

def ch (x y z : UInt32) : UInt32 := (x &&& y) ^^^ (~~~x &&& z)

def maj (x y z : UInt32) : UInt32 := (x &&& y) ^^^ (x &&& z) ^^^ (y &&& z)

def ep0 (x : UInt32) : UInt32 := rotr32 x 2 ^^^ rotr32 x 13 ^^^ rotr32 x 22

def ep1 (x : UInt32) : UInt32 := rotr32 x 6 ^^^ rotr32 x 11 ^^^ rotr32 x 25

def sig0 (x : UInt32) : UInt32 := rotr32 x 7 ^^^ rotr32 x 18 ^^^ x >>> 3

def sig1 (x : UInt32) : UInt32 := rotr32 x 17 ^^^ rotr32 x 19 ^^^ x >>> 10

/-- `K`. -/
def roundTable : List UInt32 :=
  [0x428a2f98, 0x71374491, 0xb5c0fbcf, 0xe9b5dba5, 0x3956c25b, 0x59f111f1, 0x923f82a4, 0xab1c5ed5,
   0xd807aa98, 0x12835b01, 0x243185be, 0x550c7dc3, 0x72be5d74, 0x80deb1fe, 0x9bdc06a7, 0xc19bf174,
   0xe49b69c1, 0xefbe4786, 0x0fc19dc6, 0x240ca1cc, 0x2de92c6f, 0x4a7484aa, 0x5cb0a9dc, 0x76f988da,
   0x983e5152, 0xa831c66d, 0xb00327c8, 0xbf597fc7, 0xc6e00bf3, 0xd5a79147, 0x06ca6351, 0x14292967,
   0x27b70a85, 0x2e1b2138, 0x4d2c6dfc, 0x53380d13, 0x650a7354, 0x766a0abb, 0x81c2c92e, 0x92722c85,
   0xa2bfe8a1, 0xa81a664b, 0xc24b8b70, 0xc76c51a3, 0xd192e819, 0xd6990624, 0xf40e3585, 0x106aa070,
   0x19a4c116, 0x1e376c08, 0x2748774c, 0x34b0bcb5, 0x391c0cb3, 0x4ed8aa4a, 0x5b9cca4f, 0x682e6ff3,
   0x748f82ee, 0x78a5636f, 0x84c87814, 0x8cc70208, 0x90befffa, 0xa4506ceb, 0xbef9a3f7, 0xc67178f2]

/-- `W[i]` for the first sixteen. -/
def blockWord (block : List UInt8) (i : Nat) : UInt32 :=
  ((block.getD (i * 4) 0).toUInt32 <<< 24) ||| ((block.getD (i * 4 + 1) 0).toUInt32 <<< 16) |||
    ((block.getD (i * 4 + 2) 0).toUInt32 <<< 8) ||| (block.getD (i * 4 + 3) 0).toUInt32

/-- The next word of `W`. -/
def nextWord (w : List UInt32) : UInt32 :=
  let i := w.length
  sig1 (w.getD (i - 2) 0) + w.getD (i - 7) 0 + sig0 (w.getD (i - 15) 0) + w.getD (i - 16) 0

/-- `W`, with `n` of the words that are computed from those before. -/
def words (block : List UInt8) : Nat → List UInt32
  | 0 => (List.range 16).map (blockWord block)
  | n + 1 => words block n ++ [nextWord (words block n)]

/-- The body of the loop over the rounds. -/
def roundStep (v : Eight UInt32) (ki wi : UInt32) : Eight UInt32 :=
  let t1 := v.h + ep1 v.e + ch v.e v.f v.g + ki + wi
  let t2 := ep0 v.a + maj v.a v.b v.c
  ⟨t1 + t2, v.a, v.b, v.c, v.d + t1, v.e, v.f, v.g⟩

def sha256Transform (state : Eight UInt32) (block : List UInt8) : Eight UInt32 :=
  let w := words block 48
  state.add ((List.range 64).foldl (fun v i => roundStep v (roundTable.getD i 0) (w.getD i 0)) state)

/-- `while (remaining >= 64)`, for at most `fuel` rounds: the state and the rest of the message. -/
def fullBlocks : Nat → Eight UInt32 → List UInt8 → Eight UInt32 × List UInt8
  | 0, state, p => (state, p)
  | fuel + 1, state, p =>
      if 64 ≤ p.length then fullBlocks fuel (sha256Transform state (p.take 64)) (p.drop 64) else (state, p)

/-- The bytes of a word, highest first. -/
def be32 (v : UInt32) : List UInt8 := [(v >>> 24).toUInt8, (v >>> 16).toUInt8, (v >>> 8).toUInt8, v.toUInt8]

def be64 (v : UInt64) : List UInt8 :=
  [(v >>> 56).toUInt8, (v >>> 48).toUInt8, (v >>> 40).toUInt8, (v >>> 32).toUInt8, (v >>> 24).toUInt8, (v >>> 16).toUInt8,
   (v >>> 8).toUInt8, v.toUInt8]

/-- The rest of the message in the buffer, with the one behind it. -/
def restBlock (p : List UInt8) : List UInt8 := p ++ 0x80 :: List.replicate (63 - p.length) 0

/-- The buffer as it is taken: as it is if the length does not fit, and then, emptied or not, with the length at its end. -/
def lastBlocks (p : List UInt8) (bitLen : UInt64) : List (List UInt8) :=
  if 56 ≤ p.length then [restBlock p, List.replicate 56 0 ++ be64 bitLen] else [(restBlock p).take 56 ++ be64 bitLen]

def initialState : Eight UInt32 :=
  ⟨0x6a09e667, 0xbb67ae85, 0x3c6ef372, 0xa54ff53a, 0x510e527f, 0x9b05688c, 0x1f83d9ab, 0x5be0cd19⟩

/-- `sha256`. -/
def sha256 (data : List UInt8) : List UInt8 :=
  let (state, p) := fullBlocks data.length initialState data
  let state := (lastBlocks p (UInt64.ofNat data.length * 8)).foldl sha256Transform state
  state.toList.flatMap be32

/-! ### Words and their bits -/

/-- The bits of bytes. -/
def byteBits (bs : List UInt8) : List Bool := bs.flatMap fun b => bitsOf b.toBitVec

theorem byteBits_append (bs bs' : List UInt8) : byteBits (bs ++ bs') = byteBits bs ++ byteBits bs' := List.flatMap_append

theorem byteBits_cons (b : UInt8) (bs : List UInt8) : byteBits (b :: bs) = bitsOf b.toBitVec ++ byteBits bs := rfl

theorem bitsOf_length {w : Nat} (x : BitVec w) : (bitsOf x).length = w := by simp [bitsOf]

theorem byteBits_length (bs : List UInt8) : (byteBits bs).length = 8 * bs.length := by
  induction bs with
  | nil => rfl
  | cons b bs ih => rw [byteBits_cons, List.length_append, bitsOf_length, ih, List.length_cons]; omega

theorem byteBits_replicate (n : Nat) : byteBits (List.replicate n 0) = List.replicate (8 * n) false := by
  induction n with
  | zero => rfl
  | succ n ih =>
      have hzero : bitsOf (0 : UInt8).toBitVec = List.replicate 8 false := by decide
      rw [List.replicate_succ, byteBits_cons, ih, hzero, ← List.replicate_add]
      congr 1
      omega

theorem rotr32_eq (x : UInt32) {n : UInt32} (h : 0 < n.toNat) (h' : n.toNat < 32) :
    (rotr32 x n).toBitVec = x.toBitVec.rotateRight n.toNat := by
  have hn : (n.toBitVec % 32#32).toNat = n.toNat := by
    rw [BitVec.toNat_umod]
    exact Nat.mod_eq_of_lt h'
  have hsub : ((32 - n).toBitVec % 32#32).toNat = 32 - n.toNat := by
    have hle : (32 - n).toNat = 32 - n.toNat := UInt32.toNat_sub_of_le _ _ (UInt32.le_iff_toNat_le.mpr (Nat.le_of_lt h'))
    rw [BitVec.toNat_umod]
    show (32 - n).toNat % 32 = _
    rw [hle]
    exact Nat.mod_eq_of_lt (by omega)
  rw [rotr32, BitVec.rotateRight_def, UInt32.toBitVec_or, UInt32.toBitVec_shiftRight, UInt32.toBitVec_shiftLeft,
    BitVec.ushiftRight_eq', BitVec.shiftLeft_eq', Nat.mod_eq_of_lt h']
  exact congrArg₂ _ (congrArg _ hn) (congrArg _ hsub)

theorem ch_eq (x y z : UInt32) : (ch x y z).toBitVec = Fips180.ch x.toBitVec y.toBitVec z.toBitVec := rfl

theorem maj_eq (x y z : UInt32) : (maj x y z).toBitVec = Fips180.maj x.toBitVec y.toBitVec z.toBitVec := rfl

theorem ep0_eq (x : UInt32) : (ep0 x).toBitVec = bigSigma0 x.toBitVec := by
  rw [ep0, UInt32.toBitVec_xor, UInt32.toBitVec_xor, rotr32_eq x (by decide) (by decide), rotr32_eq x (by decide) (by decide),
    rotr32_eq x (by decide) (by decide)]
  rfl

theorem ep1_eq (x : UInt32) : (ep1 x).toBitVec = bigSigma1 x.toBitVec := by
  rw [ep1, UInt32.toBitVec_xor, UInt32.toBitVec_xor, rotr32_eq x (by decide) (by decide), rotr32_eq x (by decide) (by decide),
    rotr32_eq x (by decide) (by decide)]
  rfl

theorem sig0_eq (x : UInt32) : (sig0 x).toBitVec = smallSigma0 x.toBitVec := by
  rw [sig0, UInt32.toBitVec_xor, UInt32.toBitVec_xor, rotr32_eq x (by decide) (by decide), rotr32_eq x (by decide) (by decide)]
  rfl

theorem sig1_eq (x : UInt32) : (sig1 x).toBitVec = smallSigma1 x.toBitVec := by
  rw [sig1, UInt32.toBitVec_xor, UInt32.toBitVec_xor, rotr32_eq x (by decide) (by decide), rotr32_eq x (by decide) (by decide)]
  rfl

/-- A word written highest byte first. -/
theorem be32_bits (v : UInt32) : byteBits (be32 v) = bitsOf v.toBitVec := by
  simp [byteBits, be32, bitsOf, List.range_succ]

theorem be64_bits (v : UInt64) : byteBits (be64 v) = bitsOf v.toBitVec := by
  simp [byteBits, be64, bitsOf, List.range_succ]

theorem byteBits_drop (bs : List UInt8) (n : Nat) : byteBits (bs.drop n) = (byteBits bs).drop (8 * n) := by
  induction n generalizing bs with
  | zero => rfl
  | succ n ih =>
      cases bs with
      | nil => simp [byteBits]
      | cons b bs =>
          rw [List.drop_succ_cons, ih, byteBits_cons, Nat.mul_succ, Nat.add_comm, ← List.drop_drop,
            List.drop_left' (bitsOf_length _)]

theorem byteBits_take (bs : List UInt8) (n : Nat) : byteBits (bs.take n) = (byteBits bs).take (8 * n) := by
  induction n generalizing bs with
  | zero => rfl
  | succ n ih =>
      cases bs with
      | nil => simp [byteBits]
      | cons b bs =>
          rw [List.take_succ_cons, byteBits_cons, ih, byteBits_cons, Nat.mul_succ, Nat.add_comm,
            List.take_append, bitsOf_length, Nat.add_sub_cancel_left,
            @List.take_of_length_le _ (8 + 8 * n) (bitsOf b.toBitVec) (by rw [bitsOf_length]; omega)]

theorem wordOf_bitsOf (x : Word) : wordOf (bitsOf x) = x := by
  refine BitVec.eq_of_getMsbD_eq fun i hi => ?_
  have hlen : (bitsOf x).length = 32 := bitsOf_length x
  simp [wordOf, bitsOf, hi]

/-- A word that was read highest byte first. -/
theorem be32_join (b0 b1 b2 b3 : UInt8) :
    be32 ((b0.toUInt32 <<< 24) ||| (b1.toUInt32 <<< 16) ||| (b2.toUInt32 <<< 8) ||| b3.toUInt32) = [b0, b1, b2, b3] := by
  have hbyte : ∀ {x y : UInt8}, (∀ i < 8, x.toBitVec.getLsbD i = y.toBitVec.getLsbD i) → x = y := fun h =>
    UInt8.toBitVec_inj.mp (BitVec.eq_of_getLsbD_eq h)
  simp only [be32, List.cons.injEq, and_true]
  refine ⟨hbyte fun i hi => ?_, hbyte fun i hi => ?_, hbyte fun i hi => ?_, hbyte fun i hi => ?_⟩ <;>
    interval_cases i <;> simp

theorem blockWord_eq {block : List UInt8} {i : Nat} (h : 4 * i + 4 ≤ block.length) :
    (blockWord block i).toBitVec = wordOf (((byteBits block).drop (32 * i)).take 32) := by
  have hfour : (block.drop (4 * i)).take 4 =
      [block.getD (i * 4) 0, block.getD (i * 4 + 1) 0, block.getD (i * 4 + 2) 0, block.getD (i * 4 + 3) 0] := by
    refine List.ext_getElem (by simp; omega) fun j hj hj' => ?_
    have hj : j < 4 := hj'
    have hget : ∀ k (_ : k < 4), block.getD (i * 4 + k) 0 = block.get ⟨4 * i + k, by omega⟩ := by
      intro k hk
      rw [List.getD_eq_getElem?_getD, Nat.mul_comm, List.getElem?_eq_getElem (by omega), Option.getD_some]
      rfl
    rw [List.getElem_take, List.getElem_drop]
    interval_cases j
    · exact (hget 0 (by omega)).symm
    · exact (hget 1 (by omega)).symm
    · exact (hget 2 (by omega)).symm
    · exact (hget 3 (by omega)).symm
  have hbits : ((byteBits block).drop (32 * i)).take 32 = byteBits ((block.drop (4 * i)).take 4) := by
    rw [byteBits_take, byteBits_drop, ← Nat.mul_assoc]
  rw [hbits, hfour, ← be32_join, be32_bits, wordOf_bitsOf]
  rfl

/-! ### One block -/

theorem words_length (block : List UInt8) (n : Nat) : (words block n).length = 16 + n := by
  induction n with
  | zero => rfl
  | succ n ih => rw [words, List.length_append, ih, List.length_singleton]; rfl

/-- **The message schedule.** -/
theorem words_eq {block : List UInt8} (h : block.length = 64) (n : Nat) {t : Nat} (ht : t < 16 + n) :
    ((words block n).getD t 0).toBitVec = schedule (byteBits block) t := by
  induction n generalizing t with
  | zero =>
      rw [schedule, if_pos (by omega), words, List.getD_eq_getElem?_getD, List.getElem?_map, List.getElem?_range (by omega)]
      exact blockWord_eq (by omega)
  | succ n ih =>
      have hlen := words_length block n
      rw [words, List.getD_eq_getElem?_getD]
      by_cases hlast : t < 16 + n
      · rw [List.getElem?_append_left (by omega), ← List.getD_eq_getElem?_getD]
        exact ih hlast
      · obtain rfl : t = 16 + n := by omega
        rw [List.getElem?_append_right (by omega), hlen, Nat.sub_self, schedule, if_neg (by omega), ← ih (by omega),
          ← ih (by omega), ← ih (by omega), ← ih (by omega), ← sig1_eq, ← sig0_eq]
        show (nextWord (words block n)).toBitVec = _
        rw [nextWord, hlen]
        rfl

theorem roundStep_eq (v : Eight UInt32) (k w : UInt32) :
    (roundStep v k w).map UInt32.toBitVec = round (v.map UInt32.toBitVec) k.toBitVec w.toBitVec := by
  simp only [roundStep, Fips180.round, Eight.map, UInt32.toBitVec_add, ep0_eq, ep1_eq, ch_eq, maj_eq]

/-- The first 64 primes. -/
def firstPrimes : List Nat :=
  [2, 3, 5, 7, 11, 13, 17, 19, 23, 29, 31, 37, 41, 43, 47, 53, 59, 61, 67, 71, 73, 79, 83, 89, 97, 101, 103, 107, 109, 113,
   127, 131, 137, 139, 149, 151, 157, 163, 167, 173, 179, 181, 191, 193, 197, 199, 211, 223, 227, 229, 233, 239, 241, 251,
   257, 263, 269, 271, 277, 281, 283, 293, 307, 311]

theorem nth_prime {t : Nat} (ht : t < 64) : Nat.nth Nat.Prime t = firstPrimes.getD t 0 := by
  have hcount : ∀ t < 64, (firstPrimes.getD t 0).Prime ∧ Nat.count Nat.Prime (firstPrimes.getD t 0) = t := by decide +kernel
  obtain ⟨hprime, hcount⟩ := hcount t ht
  rw [← Nat.nth_count hprime, hcount]

theorem roundTable_eq {t : Nat} (ht : t < 64) : (roundTable.getD t 0).toBitVec = roundConstant t := by
  have hroots : ∀ t < 64, ∃ a ≤ 6, (a * 2 ^ 32 + (roundTable.getD t 0).toBitVec.toNat) ^ 3 ≤ firstPrimes.getD t 0 * 2 ^ (32 * 3) ∧
      firstPrimes.getD t 0 * 2 ^ (32 * 3) < (a * 2 ^ 32 + (roundTable.getD t 0).toBitVec.toNat + 1) ^ 3 := by decide +kernel
  obtain ⟨a, -, hlow, hhigh⟩ := hroots t ht
  rw [roundConstant, nth_prime ht, rootBits_eq (by decide) a hlow hhigh]

theorem initialState_eq : initialState.map UInt32.toBitVec = initialHash := by
  have hroots : ∀ j < 8, ∃ a ≤ 4, (a * 2 ^ 32 + (initialState.toList.getD j 0).toBitVec.toNat) ^ 2 ≤ firstPrimes.getD j 0 * 2 ^ (32 * 2) ∧
      firstPrimes.getD j 0 * 2 ^ (32 * 2) < (a * 2 ^ 32 + (initialState.toList.getD j 0).toBitVec.toNat + 1) ^ 2 := by decide +kernel
  have hword : ∀ j < 8, initialWord j = (initialState.toList.getD j 0).toBitVec := by
    intro j hj
    obtain ⟨a, -, hlow, hhigh⟩ := hroots j hj
    rw [initialWord, nth_prime (by omega), rootBits_eq (by decide) a hlow hhigh]
  rw [initialHash, hword 0 (by decide), hword 1 (by decide), hword 2 (by decide), hword 3 (by decide), hword 4 (by decide),
    hword 5 (by decide), hword 6 (by decide), hword 7 (by decide)]
  rfl

theorem rounds_eq {block : List UInt8} (h : block.length = 64) (v : Eight UInt32) {n : Nat} (hn : n ≤ 64) :
    ((List.range n).foldl (fun v i => roundStep v (roundTable.getD i 0) ((words block 48).getD i 0)) v).map UInt32.toBitVec =
      (List.range n).foldl (fun u t => round u (roundConstant t) (schedule (byteBits block) t)) (v.map UInt32.toBitVec) := by
  induction n with
  | zero => rfl
  | succ n ih =>
      rw [List.range_succ, List.foldl_append, List.foldl_append, List.foldl_cons, List.foldl_cons, List.foldl_nil, List.foldl_nil,
        roundStep_eq, ih (by omega), roundTable_eq (by omega), words_eq h 48 (by omega)]

/-- **`sha256_transform`** is one step of the hash computation. -/
theorem sha256Transform_eq {block : List UInt8} (h : block.length = 64) (state : Eight UInt32) :
    (sha256Transform state block).map UInt32.toBitVec = compress (state.map UInt32.toBitVec) (byteBits block) := by
  rw [sha256Transform, compress, ← rounds_eq h state (Nat.le_refl 64)]
  simp only [Eight.add, Eight.map, UInt32.toBitVec_add, BitVec.add_comm]

theorem foldl_transform {bs : List (List UInt8)} (h : ∀ b ∈ bs, b.length = 64) (state : Eight UInt32) :
    (bs.foldl sha256Transform state).map UInt32.toBitVec = (bs.map byteBits).foldl compress (state.map UInt32.toBitVec) := by
  induction bs generalizing state with
  | nil => rfl
  | cons b bs ih =>
      rw [List.foldl_cons, ih (fun b hb => h b (List.mem_cons_of_mem _ hb)), sha256Transform_eq (h b List.mem_cons_self)]
      rfl

/-! ### The message -/

/-- What stands behind a message of `len` bytes. -/
def padTail (len : Nat) : List UInt8 := 0x80 :: (List.replicate ((119 - len % 64) % 64) 0 ++ be64 (UInt64.ofNat len * 8))

/-- **Whole bytes are padded by whole bytes.** -/
theorem pad_byteBits {data : List UInt8} (h : data.length < 2 ^ 61) :
    pad (byteBits data) = byteBits (data ++ padTail data.length) := by
  have hone : bitsOf (0x80 : UInt8).toBitVec = true :: List.replicate 7 false := by decide
  have hlen : (UInt64.ofNat data.length * 8).toBitVec = BitVec.ofNat 64 (8 * data.length) := by
    refine BitVec.eq_of_toNat_eq ?_
    show (UInt64.ofNat data.length * 8).toNat = _
    rw [UInt64.toNat_mul, UInt64.toNat_ofNat', BitVec.toNat_ofNat, Nat.mul_comm 8]
    show data.length % 2 ^ 64 * 8 % 2 ^ 64 = _
    rw [Nat.mod_eq_of_lt (show data.length < 2 ^ 64 by omega)]
  rw [pad, byteBits_append, padTail, byteBits_cons, byteBits_append, byteBits_replicate, be64_bits, hone, hlen, byteBits_length,
    padding_eq, List.cons_append, ← List.append_assoc (List.replicate 7 false), ← List.replicate_add,
    show (959 - 8 * data.length % 512) % 512 = 7 + 8 * ((119 - data.length % 64) % 64) by omega]

theorem blocks_byteBits (l : List UInt8) : blocks 512 (byteBits l) = (blocks 64 l).map byteBits := by
  rw [blocks, blocks, byteBits_length, List.map_map, show 8 * l.length / 512 = l.length / 64 by omega]
  refine List.map_congr_left fun i _ => ?_
  rw [Function.comp_apply, byteBits_take, byteBits_drop, ← Nat.mul_assoc]

theorem length_of_mem_blocks {n : Nat} {l b : List UInt8} (h : b ∈ blocks n l) : b.length = n := by
  obtain ⟨i, hi, rfl⟩ := List.mem_map.mp h
  have hi : i < l.length / n := List.mem_range.mp hi
  have hle : n * (i + 1) ≤ l.length := (Nat.mul_le_mul_left n hi).trans (Nat.mul_div_le _ _)
  rw [List.length_take, List.length_drop]
  rw [Nat.mul_succ] at hle
  omega

/-- **`while (remaining >= 64)`** takes the blocks from the front, whatever stands behind the message. -/
theorem fullBlocks_eq : ∀ {fuel : Nat} {state : Eight UInt32} {p : List UInt8}, p.length ≤ fuel →
    (fullBlocks fuel state p).2.length = p.length % 64 ∧
      ∀ tail, (blocks 64 (p ++ tail)).foldl sha256Transform state =
        (blocks 64 ((fullBlocks fuel state p).2 ++ tail)).foldl sha256Transform (fullBlocks fuel state p).1 := by
  intro fuel
  induction fuel with
  | zero =>
      intro state p h
      rw [fullBlocks]
      exact ⟨show p.length = _ by omega, fun _ => rfl⟩
  | succ fuel ih =>
      intro state p h
      rw [fullBlocks]
      split
      · next hlong =>
          obtain ⟨hlen, hrest⟩ := @ih (sha256Transform state (p.take 64)) (p.drop 64) (by rw [List.length_drop]; omega)
          refine ⟨by rw [hlen, List.length_drop]; omega, fun tail => ?_⟩
          have hfirst : (p.take 64).length = 64 := by
            rw [List.length_take]
            omega
          have hblocks := blocks_append (by decide) hfirst (l := p.drop 64 ++ tail)
          rw [← List.append_assoc, List.take_append_drop] at hblocks
          rw [hblocks, List.foldl_cons, hrest]
      · exact ⟨show p.length = _ by omega, fun _ => rfl⟩

theorem restBlock_length {p : List UInt8} (h : p.length < 64) : (restBlock p).length = 64 := by
  rw [restBlock, List.length_append, List.length_cons, List.length_replicate]
  omega

/-- **The buffer, once or twice**, is the rest of the message with what stands behind it. -/
theorem lastBlocks_eq {p : List UInt8} {len : Nat} (h : p.length = len % 64) :
    blocks 64 (p ++ padTail len) = lastBlocks p (UInt64.ofNat len * 8) := by
  have hbe : ∀ v, (be64 v).length = 8 := fun _ => rfl
  have hlt : p.length < 64 := by omega
  rw [padTail, lastBlocks, ← h]
  split
  · next hlong =>
      have hsplit : p ++ 0x80 :: (List.replicate ((119 - p.length) % 64) 0 ++ be64 (UInt64.ofNat len * 8)) =
          restBlock p ++ ((List.replicate 56 0 ++ be64 (UInt64.ofNat len * 8)) ++ []) := by
        rw [restBlock, show (119 - p.length) % 64 = (63 - p.length) + 56 by omega, List.replicate_add]
        simp only [List.append_assoc, List.cons_append, List.append_nil]
      rw [hsplit, blocks_append (by decide) (restBlock_length hlt), blocks_append (by decide) (by simp [hbe]),
        blocks_of_lt (by decide)]
  · next hshort =>
      have htake : (restBlock p).take 56 = p ++ 0x80 :: List.replicate (55 - p.length) 0 := by
        rw [restBlock, List.take_append, List.take_of_length_le (by omega), show 56 - p.length = (55 - p.length) + 1 by omega,
          List.take_succ_cons, List.take_replicate, Nat.min_eq_left (by omega)]
      have hsplit : p ++ 0x80 :: (List.replicate ((119 - p.length) % 64) 0 ++ be64 (UInt64.ofNat len * 8)) =
          (restBlock p).take 56 ++ be64 (UInt64.ofNat len * 8) ++ [] := by
        rw [htake, show (119 - p.length) % 64 = 55 - p.length by omega]
        simp only [List.append_assoc, List.cons_append, List.append_nil]
      rw [hsplit, blocks_append (by decide) (by
        rw [List.length_append, hbe, List.length_take, restBlock_length hlt]; rfl), blocks_of_lt (by decide)]

/-- **`sha256` is SHA-256**: for every message that is short enough for its length in bits to have 64 bits. -/
theorem sha256_standard (data : List UInt8) (h : data.length < 2 ^ 61) :
    byteBits (sha256 data) = Fips180.sha256 (byteBits data) := by
  obtain ⟨hlen, hrun⟩ := @fullBlocks_eq data.length initialState data (Nat.le_refl _)
  have hstate : (blocks 64 (data ++ padTail data.length)).foldl sha256Transform initialState =
      (lastBlocks (fullBlocks data.length initialState data).2 (UInt64.ofNat data.length * 8)).foldl sha256Transform
        (fullBlocks data.length initialState data).1 := by
    rw [hrun, lastBlocks_eq hlen]
  have hout : ∀ vs : List UInt32, byteBits (vs.flatMap be32) = (vs.map UInt32.toBitVec).flatMap bitsOf := by
    intro vs
    induction vs with
    | nil => rfl
    | cons v vs ih => rw [List.flatMap_cons, byteBits_append, be32_bits, ih]; rfl
  rw [Fips180.sha256, pad_byteBits h, blocks_byteBits, ← initialState_eq,
    ← foldl_transform (fun b hb => length_of_mem_blocks hb), hstate, Eight.toList_map, ← hout]
  rfl

/-- The digest of `abc`. -/
theorem sha256_standard_abc :
    sha256 [0x61, 0x62, 0x63] =
      [0xba, 0x78, 0x16, 0xbf, 0x8f, 0x01, 0xcf, 0xea, 0x41, 0x41, 0x40, 0xde, 0x5d, 0xae, 0x22, 0x23,
       0xb0, 0x03, 0x61, 0xa3, 0x96, 0x17, 0x7a, 0x9c, 0xb4, 0x10, 0xff, 0x61, 0xf2, 0x00, 0x15, 0xad] ∧
    byteBits (sha256 [0x61, 0x62, 0x63]) = Fips180.sha256 (byteBits [0x61, 0x62, 0x63]) :=
  ⟨by decide +kernel, sha256_standard [0x61, 0x62, 0x63] (by decide)⟩

end Blackmount.User
