import Blackmount.Fat.Parts
import Mathlib.Data.Nat.Bitwise

/-!
# FAT — the entries of the table

The table is a stream of bytes from `fat_start` on, and its entries are numbers of 12, 16 or 32 bits without a gap.

* `next12_eq`: an entry of FAT12 is read as the 12 bits that it has in the stream, in one sector or two.
* `fat_codec`: with FAT16 and FAT32, what is set is read back, and no other entry changes.
-/

namespace Blackmount.Fat
open Blackmount.Lib

/-! ### The stream -/

/-- The sector with byte `o` of the table. -/
def FatFs.sectorOf (fs : FatFs) (o : Nat) : Nat := (fs.fatStart + o / sectorBytes) % 2 ^ 32

def FatFs.table (fs : FatFs) (dev : Device) : Bytes := fun o => dev.data (fs.sectorOf o) (o % sectorBytes)

/-- Bit `n` of a stream. -/
def bitOf (t : Bytes) (n : Nat) : Bool := (t (n / 8)).toNat.testBit (n % 8)

/-- Entry `c` of a table with entries of `width` bits. -/
def packed (width : Nat) (t : Bytes) (c : Nat) : Nat := Nat.ofBits fun i : Fin width => bitOf t (width * c + i)

/-- What is returned for an entry; the last eight values end a chain. -/
def nextOf (bits value : Nat) : Nat := if 2 ^ bits - 8 ≤ value then endOfChain else value

section
variable {t : Bytes} {c : Nat}

theorem packed_testBit (width : Nat) (t : Bytes) (c i : Nat) :
    (packed width t c).testBit i = (decide (i < width) && bitOf t (width * c + i)) := by
  rw [packed, Nat.testBit_ofBits]
  by_cases h : i < width <;> simp [h]

theorem rd16_testBit {o i : Nat} (h : i < 16) : (rd16 t o).testBit i = bitOf t (8 * o + i) := by
  rw [rd16, Nat.add_comm, bitOf]
  have hsplit := Nat.testBit_two_pow_mul_add (i := 8) (t (o + 1)).toNat (t o).toNat_lt i
  rw [show 256 = 2 ^ 8 from rfl, hsplit]
  split
  · rw [show (8 * o + i) / 8 = o by omega, show (8 * o + i) % 8 = i by omega]
  · rw [show (8 * o + i) / 8 = o + 1 by omega, show (8 * o + i) % 8 = i - 8 by omega]

theorem packed12_even (h : c % 2 = 0) : packed 12 t c = rd16 t (c + c / 2) % 4096 := by
  refine Nat.eq_of_testBit_eq fun i => ?_
  rw [packed_testBit, show 4096 = 2 ^ 12 from rfl, Nat.testBit_mod_two_pow]
  by_cases hi : i < 12
  · rw [rd16_testBit (by omega), show 8 * (c + c / 2) + i = 12 * c + i by omega]
  · rw [decide_eq_false hi, Bool.false_and, Bool.false_and]

theorem packed12_odd (h : c % 2 = 1) : packed 12 t c = rd16 t (c + c / 2) / 16 := by
  refine Nat.eq_of_testBit_eq fun i => ?_
  rw [packed_testBit, show 16 = 2 ^ 4 from rfl, Nat.testBit_div_two_pow]
  by_cases hi : i < 12
  · rw [rd16_testBit (by omega), show 8 * (c + c / 2) + (i + 4) = 12 * c + i by omega, decide_eq_true hi, Bool.true_and]
  · have hlt : rd16 t (c + c / 2) < 2 ^ (i + 4) :=
      Nat.lt_of_lt_of_le (rd16_lt _ _) (Nat.pow_le_pow_right Nat.two_pos (by omega : 16 ≤ i + 4))
    rw [decide_eq_false hi, Bool.false_and, Nat.testBit_lt_two_pow hlt]

theorem entry12_packed (t : Bytes) (c : Nat) : entry12 c (rd16 t (c + c / 2)) = nextOf 12 (packed 12 t c) := by
  rcases Nat.mod_two_eq_zero_or_one c with h | h
  · have hodd : ¬ c % 2 = 1 := by omega
    simp only [entry12, nextOf, hodd, if_false, packed12_even h]
    rfl
  · simp only [entry12, nextOf, h, if_true, packed12_odd h]
    rfl

end

/-! ### FAT12 -/

section
variable {fs : FatFs} {dev dev' : Device} {c c' : Nat}

/-- The sectors with the two bytes that hold entry `c` of FAT12 can be read. -/
def Readable12 (fs : FatFs) (dev : Device) (c : Nat) : Prop :=
  dev.readable (fs.sectorOf (c + c / 2)) ∧ dev.readable (fs.sectorOf (c + c / 2 + 1))

instance : Decidable (Readable12 fs dev c) := by unfold Readable12; infer_instance

/-- **An entry of FAT12** is read as its bits in the stream, also where a sector ends within it. -/
theorem next12_eq (hbps : fs.bps = sectorBytes) (htype : fs.type = .fat12) (hc : c + c / 2 + 1 < 2 ^ 32) :
    fatGetNextCluster fs dev c = some (if Readable12 fs dev c then nextOf 12 (packed 12 (fs.table dev) c) else 0) := by
  rw [← entry12_packed]
  obtain ⟨o, ho⟩ : ∃ o, o = c + c / 2 := ⟨_, rfl⟩
  have hreadable : Readable12 fs dev c ↔ dev.readable (fs.sectorOf o) ∧ dev.readable (fs.sectorOf (o + 1)) := by
    rw [Readable12, ← ho]
  have hmod : o % 2 ^ 32 = o := Nat.mod_eq_of_lt (by omega)
  have hin : o % sectorBytes < 512 := Nat.mod_lt _ (by decide)
  have hsector : (fs.fatStart + o / sectorBytes) % 2 ^ 32 = fs.sectorOf o := rfl
  simp only [fatGetNextCluster, htype, hbps, ← ho, hmod, hsector, rd16, FatFs.table, Device.read]
  by_cases hfirst : dev.readable (fs.sectorOf o)
  · rw [if_pos hfirst]
    dsimp only
    by_cases hlast : o % sectorBytes = sectorBytes - 1
    · -- The second byte is the first one of the next sector.
      have hnext : (fs.sectorOf o + 1) % 2 ^ 32 = fs.sectorOf (o + 1) := by
        simp only [FatFs.sectorOf, sectorBytes] at hlast ⊢
        omega
      have hzero : (o + 1) % sectorBytes = 0 := by
        simp only [sectorBytes] at hlast ⊢
        omega
      rw [if_pos hlast, hnext, hzero]
      by_cases hsecond : dev.readable (fs.sectorOf (o + 1))
      · rw [if_pos hsecond, if_pos (hreadable.mpr ⟨hfirst, hsecond⟩), access_le (Nat.succ_le_of_lt hin)]
        rfl
      · rw [if_neg hsecond, if_neg fun h => hsecond (hreadable.mp h).2]
    · have hsame : fs.sectorOf (o + 1) = fs.sectorOf o := by
        simp only [FatFs.sectorOf, sectorBytes] at hlast ⊢
        omega
      have hnext : (o + 1) % sectorBytes = o % sectorBytes + 1 := by
        simp only [sectorBytes] at hlast ⊢
        omega
      have hfits : o % sectorBytes + 2 ≤ 512 := by
        simp only [sectorBytes] at hlast hin ⊢
        omega
      rw [if_neg hlast, if_pos (hreadable.mpr ⟨hfirst, hsame ▸ hfirst⟩), access_le hfits, hsame, hnext]
      rfl
  · rw [if_neg hfirst, if_neg fun h => hfirst (hreadable.mp h).1]

/-! ### FAT16 and FAT32 -/

/-- The sector with byte `fatOffset` of the table is read, changed and written back. -/
def storeEntry (fs : FatFs) (dev : Device) (fatOffset width : Nat) (put : Bytes → Nat → Bytes) : Option (Bool × Device) :=
  let fatSector := (fs.fatStart + fatOffset / fs.bps) % 2 ^ 32
  match dev.read fatSector with
  | none => some (false, dev)
  | some sector => do
      access (fatOffset % fs.bps) width
      match dev.write fatSector (put sector (fatOffset % fs.bps)) with
      | none => return (false, dev)
      | some dev => return (true, dev)

/-- `fat_set_fat_entry`, with what it returns. -/
def setFatEntry (fs : FatFs) (dev : Device) (cluster next : Nat) : Option (Bool × Device) :=
  match fs.type with
  | .fat12 => some (false, dev)
  | .fat16 => storeEntry fs dev (cluster * 2 % 2 ^ 32) 2 fun sector o => wr16 sector o next
  | .fat32 => storeEntry fs dev (cluster * 4 % 2 ^ 32) 4 fun sector o => wr32 sector o (next % 2 ^ 28)

/-- What is read of an entry. -/
def readNext (fs : FatFs) (dev : Device) (width bits : Nat) (rd : Bytes → Nat → Nat) (c : Nat) : Nat :=
  match dev.read (fs.sectorOf (c * width)) with
  | none => 0
  | some sector => nextOf bits (rd sector (c * width % sectorBytes) % 2 ^ bits)

theorem next16_eq (hbps : fs.bps = sectorBytes) (htype : fs.type = .fat16) (hc : c * 2 < 2 ^ 32) :
    fatGetNextCluster fs dev c = some (readNext fs dev 2 16 rd16 c) := by
  simp only [fatGetNextCluster, htype, hbps, Nat.mod_eq_of_lt hc, readNext, FatFs.sectorOf]
  cases dev.read ((fs.fatStart + c * 2 / sectorBytes) % 2 ^ 32) with
  | none => rfl
  | some sector =>
      have hfits : c * 2 % sectorBytes + 2 ≤ 512 := by
        rw [sectorBytes]
        omega
      have hlt : rd16 sector (c * 2 % sectorBytes) % 2 ^ 16 = rd16 sector (c * 2 % sectorBytes) :=
        Nat.mod_eq_of_lt (rd16_lt sector _)
      dsimp only
      rw [access_le hfits, hlt]
      rfl

theorem next32_eq (hbps : fs.bps = sectorBytes) (htype : fs.type = .fat32) (hc : c * 4 < 2 ^ 32) :
    fatGetNextCluster fs dev c = some (readNext fs dev 4 28 rd32 c) := by
  simp only [fatGetNextCluster, htype, hbps, Nat.mod_eq_of_lt hc, readNext, FatFs.sectorOf]
  cases dev.read ((fs.fatStart + c * 4 / sectorBytes) % 2 ^ 32) with
  | none => rfl
  | some sector =>
      have hfits : c * 4 % sectorBytes + 4 ≤ 512 := by
        rw [sectorBytes]
        omega
      dsimp only
      rw [access_le hfits]
      rfl

/-- The sector of an entry is written, or the device stays as it is. -/
theorem storeEntry_cases {o width : Nat} (put : Bytes → Nat → Bytes) (hbps : fs.bps = sectorBytes)
    (hfits : o % sectorBytes + width ≤ 512) :
    (dev.readable (fs.sectorOf o) ∧ dev.writable (fs.sectorOf o)) ∧
        storeEntry fs dev o width put = some (true, { dev with
          data := Function.update dev.data (fs.sectorOf o) (put (dev.data (fs.sectorOf o)) (o % sectorBytes)) }) ∨
      ¬ (dev.readable (fs.sectorOf o) ∧ dev.writable (fs.sectorOf o)) ∧
        storeEntry fs dev o width put = some (false, dev) := by
  have hsector : (fs.fatStart + o / sectorBytes) % 2 ^ 32 = fs.sectorOf o := rfl
  simp only [storeEntry, hbps, hsector, Device.read, Device.write]
  by_cases hread : dev.readable (fs.sectorOf o)
  · rw [if_pos hread]
    dsimp only
    rw [access_le hfits]
    by_cases hwrite : dev.writable (fs.sectorOf o)
    · rw [if_pos hwrite]
      exact .inl ⟨⟨hread, hwrite⟩, rfl⟩
    · rw [if_neg hwrite]
      exact .inr ⟨fun h => hwrite h.2, rfl⟩
  · rw [if_neg hread]
    exact .inr ⟨fun h => hread h.1, rfl⟩

/-- The bytes of two entries do not meet. -/
theorem entries_apart {width : Nat} (hwidth : width = 2 ∨ width = 4) (hne : c' ≠ c) (hc : c * width < 2 ^ 32)
    (hc' : c' * width < 2 ^ 32) (hsector : fs.sectorOf (c' * width) = fs.sectorOf (c * width)) :
    c' * width % sectorBytes + width ≤ c * width % sectorBytes ∨
      c * width % sectorBytes + width ≤ c' * width % sectorBytes := by
  simp only [FatFs.sectorOf, sectorBytes] at *
  rcases hwidth with rfl | rfl
  · omega
  · omega

/-- **A set entry is read back, and the others stay.** -/
theorem store_codec (dev : Device) {width : Nat} (bits v : Nat) (put : Bytes → Nat → Bytes) (rd : Bytes → Nat → Nat)
    (hwidth : width = 2 ∨ width = 4) (hbps : fs.bps = sectorBytes) (hc : c * width < 2 ^ 32)
    (hself : ∀ s o, rd (put s o) o % 2 ^ bits = v % 2 ^ bits)
    (hother : ∀ s o p, p + width ≤ o ∨ o + width ≤ p → rd (put s o) p = rd s p) :
    ∃ done dev', storeEntry fs dev (c * width) width put = some (done, dev') ∧
      (done = true ↔ dev.readable (fs.sectorOf (c * width)) ∧ dev.writable (fs.sectorOf (c * width))) ∧
      (done = true → readNext fs dev' width bits rd c = nextOf bits (v % 2 ^ bits)) ∧
      ∀ c', c' ≠ c → c' * width < 2 ^ 32 → readNext fs dev' width bits rd c' = readNext fs dev width bits rd c' := by
  have hfits : c * width % sectorBytes + width ≤ 512 := by
    simp only [sectorBytes]
    rcases hwidth with rfl | rfl
    · omega
    · omega
  rcases storeEntry_cases put hbps hfits with ⟨hworks, hset⟩ | ⟨hworks, hset⟩
  · refine ⟨true, _, hset, ⟨fun _ => hworks, fun _ => rfl⟩, fun _ => ?_, fun c' hne hc' => ?_⟩
    · simp only [readNext, Device.read, hworks.1, if_true, Function.update_self, hself]
    · simp only [readNext, Device.read]
      by_cases hsector : fs.sectorOf (c' * width) = fs.sectorOf (c * width)
      · rw [hsector, Function.update_self, hworks.1, if_pos rfl, if_pos rfl]
        dsimp only
        rw [hother _ _ _ (entries_apart hwidth hne hc hc' hsector)]
      · rw [Function.update_of_ne hsector]
  · exact ⟨false, dev, hset, ⟨fun h => absurd h Bool.false_ne_true, fun h => absurd h hworks⟩,
      fun h => absurd h Bool.false_ne_true, fun _ _ _ => rfl⟩

end

/-- Entries of `width` bytes, of which `bits` bits count, are read back as they were set, where the sector can be read and
written; no other entry changes. -/
def Codec (fs : FatFs) (width bits : Nat) : Prop :=
  ∀ dev c v, c * width < 2 ^ 32 → ∃ done dev', setFatEntry fs dev c v = some (done, dev') ∧
    (done = true ↔ dev.readable (fs.sectorOf (c * width)) ∧ dev.writable (fs.sectorOf (c * width))) ∧
    (done = true → fatGetNextCluster fs dev' c = some (nextOf bits (v % 2 ^ bits))) ∧
    ∀ c', c' ≠ c → c' * width < 2 ^ 32 → fatGetNextCluster fs dev' c' = fatGetNextCluster fs dev c'

/-- **The entries of the table**, for sectors of 512 bytes and every cluster whose entry has its offset in a word. -/
theorem fat_codec (fs : FatFs) (hbps : fs.bps = sectorBytes) :
    (fs.type = .fat16 → Codec fs 2 16) ∧ (fs.type = .fat32 → Codec fs 4 28) ∧
      (fs.type = .fat12 → ∀ dev c, c + c / 2 + 1 < 2 ^ 32 →
        fatGetNextCluster fs dev c =
          some (if Readable12 fs dev c then nextOf 12 (packed 12 (fs.table dev) c) else 0)) := by
  refine ⟨fun htype dev c v hc => ?_, fun htype dev c v hc => ?_, fun htype dev c hc => next12_eq hbps htype hc⟩
  · obtain ⟨done, dev', hset, hdone, hself, hother⟩ := store_codec dev 16 v (fun sector o => wr16 sector o v) rd16
      (.inl rfl) hbps hc
      (fun s o => by rw [rd16_wr16, Nat.mod_mod_of_dvd _ (by decide)]) (fun s o p hp => rd16_wr16_ne s v hp)
    refine ⟨done, dev', ?_, hdone, fun hd => by rw [next16_eq hbps htype hc, hself hd], fun c' hne hc' => ?_⟩
    · rw [setFatEntry, htype, Nat.mod_eq_of_lt hc]
      exact hset
    · rw [next16_eq hbps htype hc', next16_eq hbps htype hc', hother c' hne hc']
  · obtain ⟨done, dev', hset, hdone, hself, hother⟩ := store_codec dev 28 v
      (fun sector o => wr32 sector o (v % 2 ^ 28)) rd32 (.inr rfl) hbps hc
      (fun s o => by rw [rd32_wr32, Nat.mod_mod_of_dvd _ (by decide), Nat.mod_mod]) (fun s o p hp => rd32_wr32_ne s _ hp)
    refine ⟨done, dev', ?_, hdone, fun hd => by rw [next32_eq hbps htype hc, hself hd], fun c' hne hc' => ?_⟩
    · rw [setFatEntry, htype, Nat.mod_eq_of_lt hc]
      exact hset
    · rw [next32_eq hbps htype hc', next32_eq hbps htype hc', hother c' hne hc']

/-- A file system with its table in sector 1. -/
def codecFs (type : FatType) : FatFs where
  type := type
  fatStart := 1
  dataStart := 64
  rootDir := 32
  rootCluster := 2
  spc := 1
  bps := 512
  rootEntries := 16

def zeroDevice : Device where
  data := fun _ _ => 0
  sectorCount := 4096

theorem zeroDevice_codec :
    (∃ dev', setFatEntry (codecFs .fat16) zeroDevice 300 0xABCDE = some (true, dev') ∧
      fatGetNextCluster (codecFs .fat16) dev' 300 = some 0xBCDE) ∧
      (∃ dev', setFatEntry (codecFs .fat32) zeroDevice 300 0xFFFFFFFF = some (true, dev') ∧
        fatGetNextCluster (codecFs .fat32) dev' 300 = some endOfChain) ∧
      fatGetNextCluster (codecFs .fat12) zeroDevice 341 = some (nextOf 12 (packed 12 ((codecFs .fat12).table zeroDevice) 341)) := by
  refine ⟨?_, ?_, (fat_codec (codecFs .fat12) rfl).2.2 rfl zeroDevice 341 (by decide)⟩
  · obtain ⟨done, dev', hset, hdone, hself, -⟩ := (fat_codec (codecFs .fat16) rfl).1 rfl zeroDevice 300 0xABCDE (by decide)
    have htrue : done = true := hdone.mpr ⟨rfl, rfl⟩
    exact ⟨dev', htrue ▸ hset, hself htrue⟩
  · obtain ⟨done, dev', hset, hdone, hself, -⟩ := (fat_codec (codecFs .fat32) rfl).2.1 rfl zeroDevice 300 0xFFFFFFFF (by decide)
    have htrue : done = true := hdone.mpr ⟨rfl, rfl⟩
    exact ⟨dev', htrue ▸ hset, hself htrue⟩

end Blackmount.Fat
