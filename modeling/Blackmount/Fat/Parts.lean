import Blackmount.Fat.Fs
import Mathlib.Data.Set.Finite.Basic

/-!
# FAT — accesses

With 512 bytes to a sector every access is within its buffer, and what is bounded by the volume comes to an end.

* `fatGetNextCluster_eq`, `findFree_some`, `fatSetFatEntry_some`: the table.
* `searchSectors_some`, `freeInSectors_some`: the entries of a list of sectors, and where the one that is taken lies.
-/

namespace Blackmount.Fat
open Blackmount.Lib

variable {fs : FatFs} {dev : Device}

theorem access_le {o n : Nat} (h : o + n ≤ 512) : access o n = some () := if_pos h

theorem entry12_lt {c v : Nat} : entry12 c v < 2 ^ 32 := by
  simp only [entry12, endOfChain]
  split <;> split <;> omega

theorem fatGetNextCluster_some (h : fs.bps = 512) (dev : Device) (c : Nat) :
    ∃ n < 2 ^ 32, fatGetNextCluster fs dev c = some n := by
  rw [fatGetNextCluster, h]
  cases fs.type with
  | fat12 =>
      dsimp only
      split
      · exact ⟨0, by decide, rfl⟩
      · next sector _ =>
          split
          · next hlast =>
              split
              · exact ⟨0, by decide, rfl⟩
              · next sector2 _ =>
                  rw [access_le (by omega)]
                  exact ⟨_, entry12_lt, rfl⟩
          · next hlast =>
              rw [access_le (by omega)]
              exact ⟨_, entry12_lt, rfl⟩
  | fat16 =>
      dsimp only
      split
      · exact ⟨0, by decide, rfl⟩
      · next sector _ =>
          rw [access_le (by omega)]
          refine ⟨_, ?_, rfl⟩
          have := rd16_lt sector (c * 2 % 2 ^ 32 % 512)
          simp only [endOfChain]
          split <;> omega
  | fat32 =>
      dsimp only
      split
      · exact ⟨0, by decide, rfl⟩
      · next sector _ =>
          rw [access_le (by omega)]
          refine ⟨_, ?_, rfl⟩
          simp only [endOfChain]
          split <;> omega

/-- The cluster that follows. -/
def FatFs.next (fs : FatFs) (dev : Device) (cluster : Nat) : Nat := (fatGetNextCluster fs dev cluster).getD 0

theorem fatGetNextCluster_eq (h : fs.bps = 512) (dev : Device) (c : Nat) :
    fatGetNextCluster fs dev c = some (fs.next dev c) := by
  obtain ⟨n, -, hn⟩ := fatGetNextCluster_some h dev c
  rw [FatFs.next, hn]
  rfl

theorem FatFs.next_lt (h : fs.bps = 512) (dev : Device) (c : Nat) : fs.next dev c < 2 ^ 32 := by
  obtain ⟨n, hlt, hn⟩ := fatGetNextCluster_some h dev c
  rw [FatFs.next, hn]
  exact hlt

theorem next_range (h : fs.bps = 512) (dev : Device) (c : Nat) : (Set.range fun n => (fs.next dev)^[n] c).Finite := by
  refine (Set.finite_lt_nat (max (c + 1) (2 ^ 32))).subset ?_
  rintro _ ⟨n, rfl⟩
  cases n with
  | zero => exact Nat.lt_of_lt_of_le (Nat.lt_succ_self c) (Nat.le_max_left _ _)
  | succ n =>
      refine Nat.lt_of_lt_of_le ?_ (Nat.le_max_right _ _)
      dsimp only
      rw [Function.iterate_succ_apply']
      exact FatFs.next_lt h dev _

theorem findFree_some (h : fs.bps = 512) (dev : Device) (left c : Nat) : ∃ n, findFree fs dev left c = some n := by
  induction left generalizing c with
  | zero => exact ⟨_, rfl⟩
  | succ left ih =>
      rw [findFree, h]
      cases fs.type with
      | fat12 => exact ⟨_, rfl⟩
      | fat16 =>
          dsimp only
          split
          · exact ⟨_, rfl⟩
          · rw [access_le (by omega)]
            dsimp only [Option.bind_eq_bind, Option.bind_some]
            split
            · exact ⟨_, rfl⟩
            · exact ih _
      | fat32 =>
          dsimp only
          split
          · exact ⟨_, rfl⟩
          · rw [access_le (by omega)]
            dsimp only [Option.bind_eq_bind, Option.bind_some]
            split
            · exact ⟨_, rfl⟩
            · exact ih _

theorem fatSetFatEntry_some (h : fs.bps = 512) (dev : Device) (c n : Nat) : ∃ dev', fatSetFatEntry fs dev c n = some dev' := by
  rw [fatSetFatEntry, h]
  cases fs.type with
  | fat12 => exact ⟨_, rfl⟩
  | fat16 =>
      dsimp only
      split
      · exact ⟨_, rfl⟩
      · rw [access_le (by omega)]
        exact ⟨_, rfl⟩
  | fat32 =>
      dsimp only
      split
      · exact ⟨_, rfl⟩
      · rw [access_le (by omega)]
        exact ⟨_, rfl⟩

theorem scanEntries_some (sector : Bytes) (fatName : List UInt8) {left entry : Nat} (h : entry + left ≤ 16) :
    ∃ r, scanEntries sector fatName left entry = some r ∧ ∀ o, r = .found o → o + dirEntryBytes ≤ sectorBytes := by
  induction left generalizing entry with
  | zero => exact ⟨_, rfl, fun o ho => by cases ho⟩
  | succ left ih =>
      have hin : entry * dirEntryBytes + dirEntryBytes ≤ sectorBytes := by
        simp only [dirEntryBytes, sectorBytes]
        omega
      rw [scanEntries, access_le hin]
      dsimp only [Option.bind_eq_bind, Option.bind_some]
      split
      · exact ⟨_, rfl, fun o ho => by cases ho⟩
      · split
        · exact ih (by omega)
        · split
          · exact ih (by omega)
          · split
            · exact ⟨_, rfl, fun o ho => by cases ho; exact hin⟩
            · exact ih (by omega)

/-- An entry that lies in its sector, with a size of 32 bits. -/
structure Found.Fits (f : Found) : Prop where
  offset : f.offset + dirEntryBytes ≤ sectorBytes
  size : f.entry.size < 2 ^ 32

theorem searchSectors_some (h : fs.bps = 512) (dev : Device) (fatName : List UInt8) (lbas : List Nat) :
    ∃ r, searchSectors fs dev fatName lbas = some r ∧ ∀ f, r = .found f → f.Fits := by
  induction lbas with
  | nil => exact ⟨_, rfl, fun f hf => by cases hf⟩
  | cons lba lbas ih =>
      rw [searchSectors]
      cases dev.read lba with
      | none => exact ⟨_, rfl, fun f hf => by cases hf⟩
      | some sector =>
          obtain ⟨r, hr, hin⟩ := @scanEntries_some sector fatName (fs.bps / dirEntryBytes) 0 (by rw [h]; decide)
          dsimp only
          rw [hr]
          cases r with
          | marker => exact ⟨_, rfl, fun f hf => by cases hf⟩
          | found o => exact ⟨_, rfl, fun f hf => by cases hf; exact ⟨hin o rfl, rd32_lt _ _⟩⟩
          | more => exact ih

theorem scanFree_some (sector : Bytes) {left entry : Nat} (h : entry + left ≤ 16) :
    ∃ r, scanFree sector left entry = some r ∧ ∀ o, r = some o → o + dirEntryBytes ≤ sectorBytes := by
  induction left generalizing entry with
  | zero => exact ⟨_, rfl, fun o ho => by cases ho⟩
  | succ left ih =>
      have hin : entry * dirEntryBytes + dirEntryBytes ≤ sectorBytes := by
        simp only [dirEntryBytes, sectorBytes]
        omega
      rw [scanFree, access_le hin]
      dsimp only [Option.bind_eq_bind, Option.bind_some]
      split
      · exact ⟨_, rfl, fun o ho => by cases ho; exact hin⟩
      · exact ih (by omega)

theorem freeInSectors_some (h : fs.bps = 512) (dev : Device) (lbas : List Nat) :
    ∃ r, freeInSectors fs dev lbas = some r ∧ ∀ lba o, r = .slot lba o → o + dirEntryBytes ≤ sectorBytes := by
  induction lbas with
  | nil => exact ⟨_, rfl, fun lba o ho => by cases ho⟩
  | cons lba lbas ih =>
      rw [freeInSectors]
      cases dev.read lba with
      | none => exact ⟨_, rfl, fun lba o ho => by cases ho⟩
      | some sector =>
          obtain ⟨r, hr, hin⟩ := @scanFree_some sector (fs.bps / dirEntryBytes) 0 (by rw [h]; decide)
          dsimp only
          rw [hr]
          cases r with
          | some o => exact ⟨_, rfl, fun lba o ho => by cases ho; exact hin _ rfl⟩
          | none => exact ih

end Blackmount.Fat
