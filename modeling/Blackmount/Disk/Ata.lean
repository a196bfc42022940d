import Mathlib.Logic.Function.Basic
import Mathlib.Tactic.Ring

/-!
# Disk — ATA drives

A drive behind its registers, and the driver's PIO transfers.  Each of the registers of count and address holds the last
two bytes written to it, which is how 48 bits of address go through three of them.

* `Drive`: the drive.  It is ready whenever it is polled, and the only error it has is an address that it does not have.
* `readLoop_run`, `writeLoop_run`: what the loops move.
* `transfer_complete_iff`: the requests that are carried out as asked, or refused.
-/

namespace Blackmount.Disk

abbrev Words := Nat → UInt16

/-! ### The drive -/

/-- What a command has left to move: from which sector, how many sectors, and the word that is next. -/
inductive Phase where
  | idle
  | error
  | dataIn (lba left word : Nat)
  | dataOut (lba left word : Nat)

structure Drive where
  sectors : Nat → Words
  capacity : Nat
  lba48 : Bool
  phase : Phase := .idle
  device : UInt8 := 0
  sectorCnt : UInt8 × UInt8 := (0, 0)
  lbaLow : UInt8 × UInt8 := (0, 0)
  lbaMid : UInt8 × UInt8 := (0, 0)
  lbaHigh : UInt8 × UInt8 := (0, 0)

/-- The registers that are written. -/
inductive Reg where
  | drive | sectorCnt | lbaLow | lbaMid | lbaHigh

inductive Command where
  | readPio | readPioExt | writePio | writePioExt

namespace Drive

/-- `x86_64_outb`. -/
def outb (d : Drive) (v : UInt8) : Reg → Drive
  | .drive => { d with device := v }
  | .sectorCnt => { d with sectorCnt := (v, d.sectorCnt.1) }
  | .lbaLow => { d with lbaLow := (v, d.lbaLow.1) }
  | .lbaMid => { d with lbaMid := (v, d.lbaMid.1) }
  | .lbaHigh => { d with lbaHigh := (v, d.lbaHigh.1) }

def address28 (d : Drive) : Nat :=
  (d.device &&& 0x0F).toNat * 2 ^ 24 + d.lbaHigh.1.toNat * 2 ^ 16 + d.lbaMid.1.toNat * 2 ^ 8 + d.lbaLow.1.toNat

def address48 (d : Drive) : Nat :=
  d.lbaHigh.2.toNat * 2 ^ 40 + d.lbaMid.2.toNat * 2 ^ 32 + d.lbaLow.2.toNat * 2 ^ 24 + d.lbaHigh.1.toNat * 2 ^ 16 +
    d.lbaMid.1.toNat * 2 ^ 8 + d.lbaLow.1.toNat

/-- A count of zero stands for the largest. -/
def count28 (d : Drive) : Nat := if d.sectorCnt.1.toNat = 0 then 256 else d.sectorCnt.1.toNat

def count48 (d : Drive) : Nat :=
  if d.sectorCnt.2.toNat * 256 + d.sectorCnt.1.toNat = 0 then 65536 else d.sectorCnt.2.toNat * 256 + d.sectorCnt.1.toNat

/-- Where a command goes on with `left` sectors from `lba`. -/
def next (d : Drive) (out : Bool) (lba left : Nat) : Phase :=
  if left = 0 then .idle
  else if lba < d.capacity then if out then .dataOut lba left 0 else .dataIn lba left 0
  else .error

/-- A command; one that is still at work ends. -/
def command (d : Drive) : Command → Drive
  | .readPio => { d with phase := d.next false d.address28 d.count28 }
  | .readPioExt => { d with phase := if d.lba48 then d.next false d.address48 d.count48 else .error }
  | .writePio => { d with phase := d.next true d.address28 d.count28 }
  | .writePioExt => { d with phase := if d.lba48 then d.next true d.address48 d.count48 else .error }

/-- `x86_64_inw` of the data register. -/
def inw (d : Drive) : UInt16 × Drive :=
  match d.phase with
  | .dataIn lba left word =>
      (d.sectors lba word, { d with phase := if word = 255 then d.next false (lba + 1) (left - 1) else .dataIn lba left (word + 1) })
  | _ => (0xFFFF, d)

/-- `x86_64_outw` to the data register. -/
def outw (d : Drive) (w : UInt16) : Drive :=
  match d.phase with
  | .dataOut lba left word =>
      { d with
        sectors := Function.update d.sectors lba (Function.update (d.sectors lba) word w)
        phase := if word = 255 then d.next true (lba + 1) (left - 1) else .dataOut lba left (word + 1) }
  | _ => d

/-- The status register: DRDY and DSC, with ERR or DRQ. -/
def status (d : Drive) : UInt8 :=
  match d.phase with
  | .idle => 0x50
  | .error => 0x51
  | .dataIn .. => 0x58
  | .dataOut .. => 0x58

end Drive

/-! ### The driver -/

/-- `ata_device_t`, the fields that the transfers read. -/
structure AtaDevice where
  slave : Bool
  present : Bool
  lba48Supported : Bool
  sectorCount : UInt64

def AtaDevice.driveSelect (dev : AtaDevice) : UInt8 := if dev.slave then 0xF0 else 0xE0

/-- The three polls; a status that does not change is waited for in vain. -/
def ataWaitBusy (d : Drive) : Bool := d.status &&& 0x80 == 0
def ataWaitDrq (d : Drive) : Bool := d.status &&& 0x08 != 0
def ataCheckError (d : Drive) : Bool := d.status &&& 0x01 != 0 || d.status &&& 0x20 != 0

def ataSelectDrive (dev : AtaDevice) (d : Drive) : Drive := d.outb dev.driveSelect .drive

/-- One sector from the data register. -/
def readWords (sector : Nat) (d : Drive) (buf16 : Words) (n : Nat) : Drive × Words :=
  (List.range n).foldl (fun acc i => (acc.1.inw.2, Function.update acc.2 (sector * 256 + i) acc.1.inw.1)) (d, buf16)

def writeWords (sector : Nat) (d : Drive) (buf16 : Words) (n : Nat) : Drive :=
  (List.range n).foldl (fun d i => d.outw (buf16 (sector * 256 + i))) d

/-- The loop of both reads, with the test after it; `n` sectors are left. -/
def readLoop : Nat → Nat → Drive → Words → Drive × Words × Bool
  | 0, _, d, buf16 => (d, buf16, !ataCheckError d)
  | n + 1, sector, d, buf16 =>
      if !ataWaitBusy d then (d, buf16, false)
      else if !ataWaitDrq d then (d, buf16, false)
      else
        let r := readWords sector d buf16 256
        readLoop n (sector + 1) r.1 r.2

/-- The loop of both writes. -/
def writeLoop : Nat → Nat → Drive → Words → Drive × Bool
  | 0, _, d, _ => if !ataWaitBusy d then (d, false) else (d, !ataCheckError d)
  | n + 1, sector, d, buf16 =>
      if !ataWaitBusy d then (d, false)
      else if !ataWaitDrq d then (d, false)
      else writeLoop n (sector + 1) (writeWords sector d buf16 256) buf16

/-- The parameters of a command with 28 bits of address. -/
def setup28 (dev : AtaDevice) (d : Drive) (lba : UInt32) (count : UInt8) : Drive :=
  let d := d.outb (dev.driveSelect ||| ((lba >>> 24) &&& 0x0F).toUInt8) .drive
  let d := d.outb count .sectorCnt
  let d := d.outb lba.toUInt8 .lbaLow
  let d := d.outb (lba >>> 8).toUInt8 .lbaMid
  d.outb (lba >>> 16).toUInt8 .lbaHigh

/-- Those of one with 48 bits, the high bytes first. -/
def setup48 (d : Drive) (lba : UInt64) (count : UInt16) : Drive :=
  let d := d.outb ((count >>> 8) &&& 0xFF).toUInt8 .sectorCnt
  let d := d.outb ((lba >>> 24) &&& 0xFF).toUInt8 .lbaLow
  let d := d.outb ((lba >>> 32) &&& 0xFF).toUInt8 .lbaMid
  let d := d.outb ((lba >>> 40) &&& 0xFF).toUInt8 .lbaHigh
  let d := d.outb (count &&& 0xFF).toUInt8 .sectorCnt
  let d := d.outb (lba &&& 0xFF).toUInt8 .lbaLow
  let d := d.outb ((lba >>> 8) &&& 0xFF).toUInt8 .lbaMid
  d.outb ((lba >>> 16) &&& 0xFF).toUInt8 .lbaHigh

-- The largest counts do not fit the types: what is assigned where the count is zero is zero again.
def ataReadSectorsLba28 (dev : AtaDevice) (d : Drive) (lba : UInt32) (count : UInt8) (buffer : Words) : Drive × Words × Bool :=
  let count := if count = 0 then UInt8.ofNat 256 else count
  let d := ataSelectDrive dev d
  if !ataWaitBusy d then (d, buffer, false)
  else readLoop count.toNat 0 ((setup28 dev d lba count).command .readPio) buffer

def ataReadSectorsLba48 (dev : AtaDevice) (d : Drive) (lba : UInt64) (count : UInt16) (buffer : Words) : Drive × Words × Bool :=
  let count := if count = 0 then UInt16.ofNat 65536 else count
  let d := ataSelectDrive dev d
  if !ataWaitBusy d then (d, buffer, false)
  else readLoop count.toNat 0 ((setup48 d lba count).command .readPioExt) buffer

def ataWriteSectorsLba28 (dev : AtaDevice) (d : Drive) (lba : UInt32) (count : UInt8) (buffer : Words) : Drive × Bool :=
  let count := if count = 0 then UInt8.ofNat 256 else count
  let d := ataSelectDrive dev d
  if !ataWaitBusy d then (d, false)
  else writeLoop count.toNat 0 ((setup28 dev d lba count).command .writePio) buffer

def ataWriteSectorsLba48 (dev : AtaDevice) (d : Drive) (lba : UInt64) (count : UInt16) (buffer : Words) : Drive × Bool :=
  let count := if count = 0 then UInt16.ofNat 65536 else count
  let d := ataSelectDrive dev d
  if !ataWaitBusy d then (d, false)
  else writeLoop count.toNat 0 ((setup48 d lba count).command .writePioExt) buffer

/-- Whether a request goes with 48 bits of address. -/
def AtaDevice.wide (dev : AtaDevice) (lba : UInt64) (count : UInt16) : Bool :=
  dev.lba48Supported && (decide (0x0FFFFFFF < lba) || decide (256 < count))

def ataReadSectors (dev : AtaDevice) (d : Drive) (lba : UInt64) (count : UInt16) (buffer : Words) : Drive × Words × Bool :=
  if !dev.present then (d, buffer, false)
  else if dev.sectorCount < lba + count.toUInt64 then (d, buffer, false)
  else if dev.wide lba count then ataReadSectorsLba48 dev d lba count buffer
  else ataReadSectorsLba28 dev d lba.toUInt32 count.toUInt8 buffer

def ataWriteSectors (dev : AtaDevice) (d : Drive) (lba : UInt64) (count : UInt16) (buffer : Words) : Drive × Bool :=
  if !dev.present then (d, false)
  else if dev.sectorCount < lba + count.toUInt64 then (d, false)
  else if dev.wide lba count then ataWriteSectorsLba48 dev d lba count buffer
  else ataWriteSectorsLba28 dev d lba.toUInt32 count.toUInt8 buffer

/-- The callbacks, for a block device that starts at sector `lbaOffset` of the drive. -/
def ataRead (dev : AtaDevice) (d : Drive) (lbaOffset lba : UInt64) (count : UInt32) (buf : Words) : Drive × Words × Bool :=
  ataReadSectors dev d (lbaOffset + lba) count.toUInt16 buf

def ataWrite (dev : AtaDevice) (d : Drive) (lbaOffset lba : UInt64) (count : UInt32) (buf : Words) : Drive × Bool :=
  ataWriteSectors dev d (lbaOffset + lba) count.toUInt16 buf

/-! ### One sector -/

section Sector

variable {d : Drive} {sector lba left : Nat} {buf16 : Words}

theorem readWords_run (h : d.phase = .dataIn lba left 0) {n : Nat} (hn : n ≤ 256) :
    readWords sector d buf16 n =
      ({ d with phase := if n = 256 then d.next false (lba + 1) (left - 1) else .dataIn lba left n },
        fun j => if sector * 256 ≤ j ∧ j < sector * 256 + n then d.sectors lba (j - sector * 256) else buf16 j) := by
  induction n with
  | zero =>
      have hnone : ∀ j, ¬ (sector * 256 ≤ j ∧ j < sector * 256 + 0) := fun j => by omega
      simp only [readWords, List.range_zero, List.foldl_nil, hnone, if_false, OfNat.zero_ne_ofNat, ← h]
  | succ n ih =>
      have ih := ih (by omega)
      have hne : n ≠ 256 := by omega
      rw [readWords] at ih ⊢
      rw [List.range_succ, List.foldl_append, ih, List.foldl_cons, List.foldl_nil, if_neg hne]
      have hlast : (n = 255) = (n + 1 = 256) := by simp
      simp only [Drive.inw, hlast]
      refine Prod.ext rfl (funext fun j => ?_)
      dsimp only
      by_cases hj : j = sector * 256 + n
      · rw [hj, Function.update_self, if_pos (by omega), Nat.add_sub_cancel_left]
      · rw [Function.update_of_ne hj]
        by_cases hin : sector * 256 ≤ j ∧ j < sector * 256 + n
        · rw [if_pos hin, if_pos (by omega)]
        · rw [if_neg hin, if_neg (by omega)]

theorem writeWords_run (h : d.phase = .dataOut lba left 0) {n : Nat} (hn : n ≤ 256) :
    writeWords sector d buf16 n = { d with
      sectors := Function.update d.sectors lba fun w => if w < n then buf16 (sector * 256 + w) else d.sectors lba w
      phase := if n = 256 then d.next true (lba + 1) (left - 1) else .dataOut lba left n } := by
  induction n with
  | zero =>
      simp only [writeWords, List.range_zero, List.foldl_nil, Nat.not_lt_zero, if_false, Function.update_eq_self,
        OfNat.zero_ne_ofNat, ← h]
  | succ n ih =>
      have ih := ih (by omega)
      have hne : n ≠ 256 := by omega
      rw [writeWords] at ih ⊢
      rw [List.range_succ, List.foldl_append, ih, List.foldl_cons, List.foldl_nil, if_neg hne]
      have hlast : (n = 255) = (n + 1 = 256) := by simp
      simp only [Drive.outw, hlast, Function.update_self, Function.update_idem, Drive.next]
      congr 2
      funext w
      by_cases hw : w = n
      · rw [hw, Function.update_self, if_pos (Nat.lt_succ_self n)]
      · rw [Function.update_of_ne hw]
        by_cases hin : w < n
        · rw [if_pos hin, if_pos (by omega)]
        · rw [if_neg hin, if_neg (by omega)]

end Sector

/-! ### The loops -/

section Loop

theorem ataWaitBusy_true (d : Drive) : ataWaitBusy d = true := by
  cases h : d.phase <;> simp only [ataWaitBusy, Drive.status, h] <;> decide

variable {d : Drive} {out : Bool} {lba left : Nat}

/-- Data is waited for with success just if there is a next sector. -/
theorem ataWaitDrq_next (h : d.phase = d.next out lba left) : ataWaitDrq d = decide (left ≠ 0 ∧ lba < d.capacity) := by
  rw [ataWaitDrq, Drive.status, h, Drive.next]
  by_cases hleft : left = 0
  · rw [if_pos hleft, decide_eq_false fun hno => hno.1 hleft]
    rfl
  · by_cases hlba : lba < d.capacity
    · rw [if_neg hleft, if_pos hlba, decide_eq_true ⟨hleft, hlba⟩]
      cases out <;> exact (by decide : ((0x58 : UInt8) &&& 0x08 != 0) = true)
    · rw [if_neg hleft, if_neg hlba, decide_eq_false fun hno => hlba hno.2]
      rfl

theorem ataCheckError_next (h : d.phase = d.next out lba left) : ataCheckError d = decide (left ≠ 0 ∧ d.capacity ≤ lba) := by
  rw [ataCheckError, Drive.status, h, Drive.next]
  by_cases hleft : left = 0
  · rw [if_pos hleft, decide_eq_false fun hno => hno.1 hleft]
    rfl
  · by_cases hlba : lba < d.capacity
    · rw [if_neg hleft, if_pos hlba, decide_eq_false fun hno => absurd hlba (Nat.not_lt.mpr hno.2)]
      cases out <;> exact (by decide : ((0x58 : UInt8) &&& 0x01 != 0 || (0x58 : UInt8) &&& 0x20 != 0) = false)
    · rw [if_neg hleft, if_neg hlba, decide_eq_true ⟨hleft, Nat.le_of_not_lt hlba⟩]
      rfl

theorem Drive.next_moves (h : d.phase = d.next out lba left) (hleft : 0 < left) (hlba : lba < d.capacity) :
    d.phase = if out then .dataOut lba left 0 else .dataIn lba left 0 := by
  rw [h, Drive.next, if_neg (Nat.ne_of_gt hleft), if_pos hlba]

/-- What a read leaves in the buffer. -/
def copyIn (sectors : Nat → Words) (first count : Nat) (buf16 : Words) : Words :=
  fun j => if j < count * 256 then sectors (first + j / 256) (j % 256) else buf16 j

/-- What a write leaves on the drive. -/
def copyOut (sectors : Nat → Words) (first count : Nat) (buf16 : Words) : Nat → Words :=
  fun k w => if first ≤ k ∧ k < first + count ∧ w < 256 then buf16 ((k - first) * 256 + w) else sectors k w

theorem copyIn_zero (sectors : Nat → Words) (first : Nat) (buf16 : Words) : copyIn sectors first 0 buf16 = buf16 := by
  funext j
  rw [copyIn, if_neg (by omega)]

theorem copyOut_zero (sectors : Nat → Words) (first : Nat) (buf16 : Words) : copyOut sectors first 0 buf16 = sectors := by
  funext k w
  rw [copyOut, if_neg (by omega)]

set_option maxRecDepth 4096 in
/-- **The read loop** moves sector after sector, as far as the drive has them. -/
theorem readLoop_run {n : Nat} : ∀ {sector : Nat} {d : Drive} {lba left : Nat} (buf16 : Words),
    d.phase = d.next false lba left → n ≤ left → lba + n ≤ d.capacity →
    readLoop n sector d buf16 =
      ({ d with phase := d.next false (lba + n) (left - n) },
        fun j => if sector * 256 ≤ j ∧ j < (sector + n) * 256 then
          d.sectors (lba + (j - sector * 256) / 256) ((j - sector * 256) % 256) else buf16 j,
        !decide (left - n ≠ 0 ∧ d.capacity ≤ lba + n)) := by
  induction n with
  | zero =>
      intro sector d lba left buf16 h _ _
      rw [readLoop, ataCheckError_next h, Nat.add_zero, Nat.add_zero, Nat.sub_zero, ← h]
      exact Prod.ext rfl (Prod.ext (funext fun j => (if_neg (by omega)).symm) rfl)
  | succ n ih =>
      intro sector d lba left buf16 h hleft hcap
      have hin : d.phase = .dataIn lba left 0 := Drive.next_moves h (by omega) (by omega)
      have hdrq : ataWaitDrq d = true := by
        rw [ataWaitDrq_next h]
        exact decide_eq_true ⟨by omega, by omega⟩
      rw [readLoop, ataWaitBusy_true, hdrq, readWords_run hin le_rfl]
      simp only [Bool.not_true, Bool.false_eq_true, if_false, if_true]
      rw [ih (d := { d with phase := d.next false (lba + 1) (left - 1) }) _ rfl (by omega)
        (by omega : lba + 1 + n ≤ d.capacity)]
      have hsum : lba + 1 + n = lba + (n + 1) := by omega
      have hsub : left - 1 - n = left - (n + 1) := by omega
      refine Prod.ext ?_ (Prod.ext (funext fun j => ?_) ?_)
      · simp only [Drive.next, hsum, hsub]
      · dsimp only
        have hend : (sector + 1 + n) * 256 = sector * 256 + 256 + n * 256 := by ring
        have hend' : (sector + (n + 1)) * 256 = sector * 256 + 256 + n * 256 := by ring
        have hstart : (sector + 1) * 256 = sector * 256 + 256 := by ring
        rw [hend, hend', hstart]
        generalize sector * 256 = s
        generalize n * 256 = m
        by_cases hfirst : s ≤ j ∧ j < s + 256
        · rw [if_neg (by omega), if_pos hfirst, if_pos (by omega)]
          have hdiv : (j - s) / 256 = 0 := by omega
          have hmod : (j - s) % 256 = j - s := by omega
          rw [hdiv, hmod, Nat.add_zero]
        · by_cases hrest : s + 256 ≤ j ∧ j < s + 256 + m
          · have hdiv : lba + 1 + (j - (s + 256)) / 256 = lba + (j - s) / 256 := by omega
            have hmod : (j - (s + 256)) % 256 = (j - s) % 256 := by omega
            rw [if_pos hrest, if_pos (by omega), hdiv, hmod]
          · rw [if_neg hrest, if_neg hfirst, if_neg (by omega)]
      · simp only [hsum, hsub]

/-- A drive that runs out of sectors ends the loop. -/
theorem readLoop_short {n : Nat} : ∀ {sector : Nat} {d : Drive} {lba left : Nat} (buf16 : Words),
    d.phase = d.next false lba left → 0 < n → n ≤ left → d.capacity < lba + n → (readLoop n sector d buf16).2.2 = false := by
  induction n with
  | zero => exact fun _ _ h => absurd h (Nat.lt_irrefl 0)
  | succ n ih =>
      intro sector d lba left buf16 h _ hleft hcap
      rw [readLoop, ataWaitBusy_true, ataWaitDrq_next h]
      by_cases hlba : lba < d.capacity
      · rw [readWords_run (Drive.next_moves h (by omega) hlba) le_rfl, decide_eq_true ⟨by omega, hlba⟩]
        exact ih (d := { d with phase := d.next false (lba + 1) (left - 1) }) _ rfl (by omega) (by omega)
          (by dsimp only; omega)
      · rw [decide_eq_false fun hno => hlba hno.2]
        rfl

/-- **The write loop** moves sector after sector, as far as the drive has them. -/
theorem writeLoop_run {n : Nat} : ∀ {sector : Nat} {d : Drive} {lba left : Nat} (buf16 : Words),
    d.phase = d.next true lba left → n ≤ left → lba + n ≤ d.capacity →
    writeLoop n sector d buf16 =
      ({ d with
          sectors := fun k w =>
            if lba ≤ k ∧ k < lba + n ∧ w < 256 then buf16 ((sector + (k - lba)) * 256 + w) else d.sectors k w
          phase := d.next true (lba + n) (left - n) },
        !decide (left - n ≠ 0 ∧ d.capacity ≤ lba + n)) := by
  induction n with
  | zero =>
      intro sector d lba left buf16 h _ _
      have hnone : ∀ k w, ¬ (lba ≤ k ∧ k < lba ∧ w < 256) := fun k w => by omega
      rw [writeLoop, ataWaitBusy_true, ataCheckError_next h]
      simp only [Bool.not_true, Bool.false_eq_true, Nat.add_zero, Nat.sub_zero, hnone, if_false, ← h]
  | succ n ih =>
      intro sector d lba left buf16 h hleft hcap
      have hout : d.phase = .dataOut lba left 0 := Drive.next_moves h (by omega) (by omega)
      have hdrq : ataWaitDrq d = true := by
        rw [ataWaitDrq_next h]
        exact decide_eq_true ⟨by omega, by omega⟩
      rw [writeLoop, ataWaitBusy_true, hdrq, writeWords_run hout le_rfl]
      simp only [Bool.not_true, Bool.false_eq_true, if_false, if_true]
      rw [ih (d := { d with
          sectors := Function.update d.sectors lba fun w => if w < 256 then buf16 (sector * 256 + w) else d.sectors lba w
          phase := d.next true (lba + 1) (left - 1) }) _ rfl (by omega) (by omega : lba + 1 + n ≤ d.capacity)]
      have hsum : lba + 1 + n = lba + (n + 1) := by omega
      have hsub : left - 1 - n = left - (n + 1) := by omega
      refine Prod.ext ?_ ?_
      · simp only [Drive.next, hsum, hsub]
        congr 1
        funext k w
        by_cases hfirst : k = lba
        · rw [if_neg (by omega), hfirst, Function.update_self, Nat.sub_self]
          by_cases hw : w < 256
          · rw [if_pos hw, if_pos (by omega), Nat.add_zero]
          · rw [if_neg hw, if_neg (by omega)]
        · by_cases hrest : lba + 1 ≤ k ∧ k < lba + (n + 1) ∧ w < 256
          · have hk : sector + 1 + (k - (lba + 1)) = sector + (k - lba) := by omega
            rw [if_pos hrest, if_pos (by omega), hk]
          · rw [if_neg hrest, if_neg (by omega), Function.update_of_ne hfirst]
      · simp only [hsum, hsub]

theorem writeLoop_short {n : Nat} : ∀ {sector : Nat} {d : Drive} {lba left : Nat} (buf16 : Words),
    d.phase = d.next true lba left → 0 < n → n ≤ left → d.capacity < lba + n → (writeLoop n sector d buf16).2 = false := by
  induction n with
  | zero => exact fun _ _ h => absurd h (Nat.lt_irrefl 0)
  | succ n ih =>
      intro sector d lba left buf16 h _ hleft hcap
      rw [writeLoop, ataWaitBusy_true, ataWaitDrq_next h]
      by_cases hlba : lba < d.capacity
      · rw [writeWords_run (Drive.next_moves h (by omega) hlba) le_rfl, decide_eq_true ⟨by omega, hlba⟩]
        exact ih (d := { d with
            sectors := Function.update d.sectors lba fun w => if w < 256 then buf16 (sector * 256 + w) else d.sectors lba w
            phase := d.next true (lba + 1) (left - 1) }) _ rfl (by omega) (by omega) (by dsimp only; omega)
      · rw [decide_eq_false fun hno => hlba hno.2]
        rfl

/-- The drive has a first sector to move, and all that are moved. -/
def Drive.Serves (d : Drive) (lba n : Nat) : Prop := lba < d.capacity ∧ lba + n ≤ d.capacity

/-- Registers and phase apart, the same drive. -/
structure Drive.Kept (d₀ d : Drive) : Prop where
  sectors : d.sectors = d₀.sectors
  capacity : d.capacity = d₀.capacity
  lba48 : d.lba48 = d₀.lba48

theorem Drive.Kept.trans {d₀ d d' : Drive} (h : d₀.Kept d) (h' : d.Kept d') : d₀.Kept d' :=
  ⟨h'.sectors.trans h.sectors, h'.capacity.trans h.capacity, h'.lba48.trans h.lba48⟩

theorem Drive.next_congr {d d' : Drive} (h : d'.capacity = d.capacity) (out : Bool) (lba left : Nat) :
    d'.next out lba left = d.next out lba left := by
  rw [Drive.next, Drive.next, h]

/-- The answer `r` to a read: where the drive `serves`, its sectors are in the buffer. -/
def ReadsIf (d : Drive) (buf : Words) (serves : Prop) (lba n : Nat) (r : Drive × Words × Bool) : Prop :=
  (serves → r.2 = (copyIn d.sectors lba n buf, true) ∧ r.1.sectors = d.sectors) ∧ (¬ serves → r.2.2 = false)

def WritesIf (d : Drive) (buf : Words) (serves : Prop) (lba n : Nat) (r : Drive × Bool) : Prop :=
  (serves → r.2 = true ∧ r.1.sectors = copyOut d.sectors lba n buf) ∧ (¬ serves → r.2 = false)

/-- A loop without a sector ends well just if the drive has the first. -/
theorem Drive.serves_none (d : Drive) (lba : Nat) {most : Nat} (hmost : 0 < most) :
    (d.Serves lba 0 → (!decide (most ≠ 0 ∧ d.capacity ≤ lba)) = true) ∧
      (¬ d.Serves lba 0 → (!decide (most ≠ 0 ∧ d.capacity ≤ lba)) = false) := by
  refine ⟨fun hs => ?_, fun hs => ?_⟩
  · rw [decide_eq_false fun hno => absurd hs.1 (Nat.not_lt.mpr hno.2)]
    rfl
  · rw [decide_eq_true ⟨by omega, Nat.le_of_not_lt fun hlt => hs ⟨hlt, Nat.le_of_lt hlt⟩⟩]
    rfl

/-- A whole read of `n` sectors; the command was for `most` of them if that is none. -/
theorem readLoop_all {d₀ d : Drive} {lba n most : Nat} (hkept : d₀.Kept d) (hmost : 0 < most)
    (h : d.phase = d₀.next false lba (if n = 0 then most else n)) (buf16 : Words) :
    ReadsIf d₀ buf16 (d₀.Serves lba n) lba n (readLoop n 0 d buf16) := by
  rw [← Drive.next_congr hkept.capacity] at h
  rw [ReadsIf, Drive.Serves, ← hkept.sectors, ← hkept.capacity]
  by_cases hn : n = 0
  · rw [if_pos hn] at h
    rw [hn, readLoop, ataCheckError_next h]
    obtain ⟨hok, hno⟩ := d.serves_none lba hmost
    exact ⟨fun hs => ⟨Prod.ext (copyIn_zero d.sectors lba buf16).symm (hok hs), rfl⟩, hno⟩
  · rw [if_neg hn] at h
    constructor
    · intro hs
      rw [readLoop_run buf16 h le_rfl hs.2, Nat.sub_self]
      refine ⟨Prod.ext (funext fun j => ?_) ?_, rfl⟩
      · simp only [copyIn, Nat.zero_mul, Nat.zero_le, true_and, Nat.zero_add, Nat.sub_zero]
      · rw [decide_eq_false fun hno => hno.1 rfl]
        rfl
    · intro hs
      exact readLoop_short buf16 h (Nat.pos_of_ne_zero hn) le_rfl (by omega)

theorem writeLoop_all {d₀ d : Drive} {lba n most : Nat} (hkept : d₀.Kept d) (hmost : 0 < most)
    (h : d.phase = d₀.next true lba (if n = 0 then most else n)) (buf16 : Words) :
    WritesIf d₀ buf16 (d₀.Serves lba n) lba n (writeLoop n 0 d buf16) := by
  rw [← Drive.next_congr hkept.capacity] at h
  rw [WritesIf, Drive.Serves, ← hkept.sectors, ← hkept.capacity]
  by_cases hn : n = 0
  · rw [if_pos hn] at h
    rw [hn, writeLoop, ataWaitBusy_true, ataCheckError_next h]
    obtain ⟨hok, hno⟩ := d.serves_none lba hmost
    exact ⟨fun hs => ⟨hok hs, (copyOut_zero d.sectors lba buf16).symm⟩, hno⟩
  · rw [if_neg hn] at h
    constructor
    · intro hs
      rw [writeLoop_run buf16 h le_rfl hs.2, Nat.sub_self]
      refine ⟨?_, funext fun k => funext fun w => ?_⟩
      · rw [decide_eq_false fun hno => hno.1 rfl]
        rfl
      · simp only [copyOut, Nat.zero_add]
    · intro hs
      exact writeLoop_short buf16 h (Nat.pos_of_ne_zero hn) le_rfl (by omega)

end Loop

/-! ### Requests -/

section Request

variable {dev : AtaDevice} {d : Drive}

/-- The high bits of the address share a register with the selection of the drive. -/
theorem drive_nibble (dev : AtaDevice) {x : UInt8} (hx : x.toNat < 16) : (dev.driveSelect ||| x) &&& 0x0F = x := by
  have hall : ∀ n : Fin 16, ((0xF0 : UInt8) ||| UInt8.ofNat n.val) &&& 0x0F = UInt8.ofNat n.val ∧
      ((0xE0 : UInt8) ||| UInt8.ofNat n.val) &&& 0x0F = UInt8.ofNat n.val := by
    decide
  have hx' := hall ⟨x.toNat, hx⟩
  rw [UInt8.ofNat_toNat] at hx'
  rw [AtaDevice.driveSelect]
  split
  · exact hx'.1
  · exact hx'.2

theorem setup28_parameters (dev : AtaDevice) (d : Drive) (lba : UInt32) (count : UInt8) :
    (setup28 dev d lba count).address28 = lba.toNat % 2 ^ 28 ∧
      (setup28 dev d lba count).count28 = if count.toNat = 0 then 256 else count.toNat := by
  have hnibble : (((lba >>> 24) &&& 0x0F).toUInt8).toNat = lba.toNat / 2 ^ 24 % 16 := by
    have hand : ∀ n : Nat, n &&& 15 = n % 16 := fun n => Nat.and_two_pow_sub_one_eq_mod n 4
    simp only [UInt32.toNat_toUInt8, UInt32.toNat_and, UInt32.toNat_shiftRight, UInt32.reduceToNat, hand,
      Nat.shiftRight_eq_div_pow, Nat.reduceMod]
    omega
  have hlow : lba.toUInt8.toNat = lba.toNat % 256 := UInt32.toNat_toUInt8 lba
  have hmid : (lba >>> 8).toUInt8.toNat = lba.toNat / 2 ^ 8 % 256 := by
    simp only [UInt32.toNat_toUInt8, UInt32.toNat_shiftRight, UInt32.reduceToNat, Nat.shiftRight_eq_div_pow, Nat.reduceMod]
  have hhigh : (lba >>> 16).toUInt8.toNat = lba.toNat / 2 ^ 16 % 256 := by
    simp only [UInt32.toNat_toUInt8, UInt32.toNat_shiftRight, UInt32.reduceToNat, Nat.shiftRight_eq_div_pow, Nat.reduceMod]
  refine ⟨?_, rfl⟩
  simp only [setup28, Drive.outb, Drive.address28]
  rw [drive_nibble dev (by rw [hnibble]; omega), hnibble, hlow, hmid, hhigh]
  omega

theorem setup48_parameters (d : Drive) (lba : UInt64) (count : UInt16) :
    (setup48 d lba count).address48 = lba.toNat % 2 ^ 48 ∧
      (setup48 d lba count).count48 = if count.toNat = 0 then 65536 else count.toNat := by
  have hand : ∀ n : Nat, n &&& 255 = n % 256 := fun n => Nat.and_two_pow_sub_one_eq_mod n 8
  have hcount : count.toNat < 2 ^ 16 := count.toNat_lt
  constructor
  · simp only [setup48, Drive.outb, Drive.address48, UInt64.toNat_toUInt8, UInt64.toNat_and, UInt64.toNat_shiftRight,
      UInt64.reduceToNat, hand, Nat.shiftRight_eq_div_pow, Nat.reduceMod]
    omega
  · have hbytes : ((count >>> 8) &&& 0xFF).toUInt8.toNat * 256 + (count &&& 0xFF).toUInt8.toNat = count.toNat := by
      simp only [UInt16.toNat_toUInt8, UInt16.toNat_and, UInt16.toNat_shiftRight, UInt16.reduceToNat, hand,
        Nat.shiftRight_eq_div_pow, Nat.reduceMod]
      omega
    have hreg : (setup48 d lba count).count48 =
        if ((count >>> 8) &&& 0xFF).toUInt8.toNat * 256 + (count &&& 0xFF).toUInt8.toNat = 0 then 65536
        else ((count >>> 8) &&& 0xFF).toUInt8.toNat * 256 + (count &&& 0xFF).toUInt8.toNat := rfl
    rw [hreg, hbytes]

theorem Drive.command_phase (d : Drive) :
    (d.command .readPio).phase = d.next false d.address28 d.count28 ∧
      (d.command .writePio).phase = d.next true d.address28 d.count28 ∧
      (d.lba48 = true → (d.command .readPioExt).phase = d.next false d.address48 d.count48 ∧
        (d.command .writePioExt).phase = d.next true d.address48 d.count48) :=
  ⟨rfl, rfl, fun h => ⟨if_pos h, if_pos h⟩⟩

theorem Drive.command_kept (d : Drive) (c : Command) : d.Kept (d.command c) := by
  cases c <;> exact ⟨rfl, rfl, rfl⟩

theorem Drive.outb_kept (d : Drive) (v : UInt8) (r : Reg) : d.Kept (d.outb v r) := by
  cases r <;> exact ⟨rfl, rfl, rfl⟩

theorem setup28_kept (dev : AtaDevice) (d : Drive) (lba : UInt32) (count : UInt8) : d.Kept (setup28 dev d lba count) := by
  simp only [setup28]
  exact (d.outb_kept _ _).trans <| (Drive.outb_kept _ _ _).trans <| (Drive.outb_kept _ _ _).trans <|
    (Drive.outb_kept _ _ _).trans (Drive.outb_kept _ _ _)

theorem setup48_kept (d : Drive) (lba : UInt64) (count : UInt16) : d.Kept (setup48 d lba count) := by
  simp only [setup48]
  exact (d.outb_kept _ _).trans <| (Drive.outb_kept _ _ _).trans <| (Drive.outb_kept _ _ _).trans <|
    (Drive.outb_kept _ _ _).trans <| (Drive.outb_kept _ _ _).trans <| (Drive.outb_kept _ _ _).trans <|
    (Drive.outb_kept _ _ _).trans (Drive.outb_kept _ _ _)

/-- What the drive sets out to do. -/
theorem command28_phase (dev : AtaDevice) (d : Drive) (lba : UInt32) (count : UInt8) :
    ((setup28 dev d lba count).command .readPio).phase =
        d.next false (lba.toNat % 2 ^ 28) (if count.toNat = 0 then 256 else count.toNat) ∧
      ((setup28 dev d lba count).command .writePio).phase =
        d.next true (lba.toNat % 2 ^ 28) (if count.toNat = 0 then 256 else count.toNat) := by
  obtain ⟨haddress, hcount⟩ := setup28_parameters dev d lba count
  obtain ⟨hread, hwrite, -⟩ := (setup28 dev d lba count).command_phase
  have hnext := Drive.next_congr (setup28_kept dev d lba count).capacity
  rw [hread, hwrite, haddress, hcount]
  exact ⟨hnext _ _ _, hnext _ _ _⟩

theorem command48_phase {d : Drive} (h48 : d.lba48 = true) (lba : UInt64) (count : UInt16) :
    ((setup48 d lba count).command .readPioExt).phase =
        d.next false (lba.toNat % 2 ^ 48) (if count.toNat = 0 then 65536 else count.toNat) ∧
      ((setup48 d lba count).command .writePioExt).phase =
        d.next true (lba.toNat % 2 ^ 48) (if count.toNat = 0 then 65536 else count.toNat) := by
  obtain ⟨haddress, hcount⟩ := setup48_parameters d lba count
  have hkept := setup48_kept d lba count
  obtain ⟨hread, hwrite⟩ := (setup48 d lba count).command_phase.2.2 (hkept.lba48.trans h48)
  have hnext := Drive.next_congr hkept.capacity
  rw [hread, hwrite, haddress, hcount]
  exact ⟨hnext _ _ _, hnext _ _ _⟩

/-- Zero stays zero in the type of the count. -/
theorem narrow_count : (∀ count : UInt8, (if count = 0 then UInt8.ofNat 256 else count) = count) ∧
    ∀ count : UInt16, (if count = 0 then UInt16.ofNat 65536 else count) = count := by
  refine ⟨fun count => ?_, fun count => ?_⟩
  · split
    · next h => rw [h]; rfl
    · rfl
  · split
    · next h => rw [h]; rfl
    · rfl

theorem ataReadSectorsLba28_run (dev : AtaDevice) (d : Drive) (lba : UInt32) (count : UInt8) (buffer : Words) :
    ReadsIf d buffer (d.Serves (lba.toNat % 2 ^ 28) count.toNat) (lba.toNat % 2 ^ 28) count.toNat
      (ataReadSectorsLba28 dev d lba count buffer) := by
  rw [ataReadSectorsLba28, narrow_count.1, ataWaitBusy_true]
  exact readLoop_all ((d.outb_kept _ _).trans ((setup28_kept dev _ lba count).trans (Drive.command_kept _ _))) (by decide)
    ((command28_phase dev (ataSelectDrive dev d) lba count).1.trans (Drive.next_congr rfl _ _ _)) buffer

theorem ataReadSectorsLba48_run (dev : AtaDevice) {d : Drive} (h48 : d.lba48 = true) (lba : UInt64) (count : UInt16)
    (buffer : Words) :
    ReadsIf d buffer (d.Serves (lba.toNat % 2 ^ 48) count.toNat) (lba.toNat % 2 ^ 48) count.toNat
      (ataReadSectorsLba48 dev d lba count buffer) := by
  rw [ataReadSectorsLba48, narrow_count.2, ataWaitBusy_true]
  exact readLoop_all ((d.outb_kept _ _).trans ((setup48_kept _ lba count).trans (Drive.command_kept _ _))) (by decide)
    ((command48_phase (d := ataSelectDrive dev d) h48 lba count).1.trans (Drive.next_congr rfl _ _ _)) buffer

theorem ataWriteSectorsLba28_run (dev : AtaDevice) (d : Drive) (lba : UInt32) (count : UInt8) (buffer : Words) :
    WritesIf d buffer (d.Serves (lba.toNat % 2 ^ 28) count.toNat) (lba.toNat % 2 ^ 28) count.toNat
      (ataWriteSectorsLba28 dev d lba count buffer) := by
  rw [ataWriteSectorsLba28, narrow_count.1, ataWaitBusy_true]
  exact writeLoop_all ((d.outb_kept _ _).trans ((setup28_kept dev _ lba count).trans (Drive.command_kept _ _))) (by decide)
    ((command28_phase dev (ataSelectDrive dev d) lba count).2.trans (Drive.next_congr rfl _ _ _)) buffer

theorem ataWriteSectorsLba48_run (dev : AtaDevice) {d : Drive} (h48 : d.lba48 = true) (lba : UInt64) (count : UInt16)
    (buffer : Words) :
    WritesIf d buffer (d.Serves (lba.toNat % 2 ^ 48) count.toNat) (lba.toNat % 2 ^ 48) count.toNat
      (ataWriteSectorsLba48 dev d lba count buffer) := by
  rw [ataWriteSectorsLba48, narrow_count.2, ataWaitBusy_true]
  exact writeLoop_all ((d.outb_kept _ _).trans ((setup48_kept _ lba count).trans (Drive.command_kept _ _))) (by decide)
    ((command48_phase (d := ataSelectDrive dev d) h48 lba count).2.trans (Drive.next_congr rfl _ _ _)) buffer

/-- The sectors that are moved: the count as the narrowest type holds it. -/
def AtaDevice.moved (dev : AtaDevice) (lba : UInt64) (count : UInt16) : Nat :=
  if dev.wide lba count then count.toNat else count.toNat % 2 ^ 8

/-- The first of them: the address as the command holds it. -/
def AtaDevice.address (dev : AtaDevice) (lba : UInt64) (count : UInt16) : Nat :=
  lba.toNat % if dev.wide lba count then 2 ^ 48 else 2 ^ 28

/-- The driver has what the drive identified itself with. -/
structure Identified (dev : AtaDevice) (d : Drive) : Prop where
  lba48 : dev.lba48Supported = d.lba48
  capacity : dev.sectorCount.toNat = d.capacity

/-- The request is turned down by the driver, or by the drive. -/
def Refused (dev : AtaDevice) (d : Drive) (lba : UInt64) (count : UInt16) : Prop :=
  dev.present = false ∨ dev.sectorCount < lba + count.toUInt64 ∨ ¬ d.Serves (dev.address lba count) (dev.moved lba count)

variable {lba : UInt64} {count : UInt16}

/-- Both requests go the same ways: `no` where they are turned down, else with 48 bits of address or with 28. -/
theorem request_run {β : Type} {Runs : Prop → Nat → Nat → β → Prop} {no wide narrow : β} (hid : Identified dev d)
    (hno : ∀ first n, Runs False first n no)
    (hwide : d.lba48 = true →
      Runs (d.Serves (lba.toNat % 2 ^ 48) count.toNat) (lba.toNat % 2 ^ 48) count.toNat wide)
    (hnarrow : Runs (d.Serves (lba.toUInt32.toNat % 2 ^ 28) count.toUInt8.toNat) (lba.toUInt32.toNat % 2 ^ 28)
      count.toUInt8.toNat narrow) :
    Runs (¬ Refused dev d lba count) (dev.address lba count) (dev.moved lba count)
      (if !dev.present then no
        else if dev.sectorCount < lba + count.toUInt64 then no
        else if dev.wide lba count then wide else narrow) := by
  have hlba : lba.toUInt32.toNat % 2 ^ 28 = lba.toNat % 2 ^ 28 := by
    rw [UInt64.toNat_toUInt32]
    omega
  rw [hlba, UInt16.toNat_toUInt8] at hnarrow
  rw [Refused, AtaDevice.address, AtaDevice.moved]
  cases dev.present with
  | false =>
      rw [eq_false (not_not_intro (Or.inl rfl))]
      exact hno _ _
  | true =>
      by_cases hend : dev.sectorCount < lba + count.toUInt64
      · rw [if_pos hend, eq_false (not_not_intro (Or.inr (Or.inl hend)))]
        exact hno _ _
      · simp only [Bool.not_true, Bool.false_eq_true, if_false, Bool.true_eq_false, hend, false_or, not_not]
        cases h : dev.wide lba count with
        | true =>
            rw [AtaDevice.wide, Bool.and_eq_true, hid.lba48] at h
            exact hwide h.1
        | false => exact hnarrow

theorem ataReadSectors_run (hid : Identified dev d) (buf : Words) :
    ReadsIf d buf (¬ Refused dev d lba count) (dev.address lba count) (dev.moved lba count)
      (ataReadSectors dev d lba count buf) :=
  request_run hid (fun _ _ => ⟨False.elim, fun _ => rfl⟩) (fun h => ataReadSectorsLba48_run dev h lba count buf)
    (ataReadSectorsLba28_run dev d lba.toUInt32 count.toUInt8 buf)

theorem ataWriteSectors_run (hid : Identified dev d) (buf : Words) :
    WritesIf d buf (¬ Refused dev d lba count) (dev.address lba count) (dev.moved lba count)
      (ataWriteSectors dev d lba count buf) :=
  request_run hid (fun _ _ => ⟨False.elim, fun _ => rfl⟩) (fun h => ataWriteSectorsLba48_run dev h lba count buf)
    (ataWriteSectorsLba28_run dev d lba.toUInt32 count.toUInt8 buf)

end Request

/-! ### Complete transfers -/

/-- **Complete**: whatever is on the drive and in the buffer, a request that succeeds has moved its sectors, which the drive
has, and nothing else. -/
def Complete (dev : AtaDevice) (d : Drive) (lbaOffset lba : UInt64) (count : UInt32) : Prop :=
  ∀ (sectors : Nat → Words) (buf : Words),
    let d' := { d with sectors := sectors }
    let first := lbaOffset.toNat + lba.toNat
    ((ataRead dev d' lbaOffset lba count buf).2.2 = true → first + count.toNat ≤ d.capacity ∧
      (ataRead dev d' lbaOffset lba count buf).2.1 = copyIn sectors first count.toNat buf ∧
      (ataRead dev d' lbaOffset lba count buf).1.sectors = sectors) ∧
    ((ataWrite dev d' lbaOffset lba count buf).2 = true → first + count.toNat ≤ d.capacity ∧
      (ataWrite dev d' lbaOffset lba count buf).1.sectors = copyOut sectors first count.toNat buf)

/-- The count is the number of sectors moved, and the first sector the one that is addressed; without sectors, one that 64
bits hold. -/
def Expressed (dev : AtaDevice) (lbaOffset lba : UInt64) (count : UInt32) : Prop :=
  dev.moved (lbaOffset + lba) count.toUInt16 = count.toNat ∧
    if count = 0 then lbaOffset.toNat + lba.toNat < 2 ^ 64
    else dev.address (lbaOffset + lba) count.toUInt16 = lbaOffset.toNat + lba.toNat

/-- Two reads that are alike for all contents move the same sectors. -/
theorem copyIn_inj {first first' n n' : Nat} (h : ∀ sectors buf, copyIn sectors first n buf = copyIn sectors first' n' buf) :
    n = n' ∧ (n ≠ 0 → first = first') := by
  have hle : ∀ {first first' n n' : Nat},
      (∀ sectors buf, copyIn sectors first n buf = copyIn sectors first' n' buf) → n ≤ n' := by
    intro first first' n n' h
    by_contra hlt
    have hword := congrFun (h (fun _ _ => 1) fun _ => 0) (n' * 256)
    rw [copyIn, copyIn, if_pos (by omega), if_neg (by omega)] at hword
    exact absurd hword (by decide)
  refine ⟨Nat.le_antisymm (hle h) (hle fun sectors buf => (h sectors buf).symm), fun hn => ?_⟩
  have hn' : n' ≠ 0 := fun h0 => hn (Nat.le_zero.mp (h0 ▸ hle h))
  have hword := congrFun (h (fun k _ => if k = first then 1 else 0) fun _ => 0) 0
  have hpos : 0 < n * 256 ∧ 0 < n' * 256 := by omega
  rw [copyIn, copyIn, if_pos hpos.1, if_pos hpos.2] at hword
  by_contra hne
  simp only [Nat.zero_div, Nat.add_zero, if_true, if_neg (Ne.symm hne)] at hword
  exact absurd hword (by decide)

/-- **When a transfer is complete**: it is turned down, or its count and its address survive the types they go through. -/
theorem transfer_complete_iff (dev : AtaDevice) (d : Drive) (hid : Identified dev d) (lbaOffset lba : UInt64)
    (count : UInt32) :
    Complete dev d lbaOffset lba count ↔
      Refused dev d (lbaOffset + lba) count.toUInt16 ∨ Expressed dev lbaOffset lba count := by
  have hid' : ∀ sectors, Identified dev { d with sectors := sectors } := fun _ => ⟨hid.lba48, hid.capacity⟩
  have hread := fun sectors buf => @ataReadSectors_run dev _ (lbaOffset + lba) count.toUInt16 (hid' sectors) buf
  have hwrite := fun sectors buf => @ataWriteSectors_run dev _ (lbaOffset + lba) count.toUInt16 (hid' sectors) buf
  have hstart : (lbaOffset + lba).toNat = (lbaOffset.toNat + lba.toNat) % 2 ^ 64 := UInt64.toNat_add _ _
  have hcount : count.toUInt16.toNat = count.toNat % 2 ^ 16 := UInt32.toNat_toUInt16 _
  by_cases hrefused : Refused dev d (lbaOffset + lba) count.toUInt16
  · refine iff_of_true (fun sectors buf => ⟨fun h => ?_, fun h => ?_⟩) (.inl hrefused)
    · rw [ataRead, (hread sectors buf).2 (not_not_intro hrefused)] at h
      cases h
    · rw [ataWrite, (hwrite sectors buf).2 (not_not_intro hrefused)] at h
      cases h
  · have hend : ¬ dev.sectorCount < lbaOffset + lba + count.toUInt16.toUInt64 := fun h => hrefused (.inr (.inl h))
    have hserves : d.Serves (dev.address (lbaOffset + lba) count.toUInt16) (dev.moved (lbaOffset + lba) count.toUInt16) :=
      not_not.mp fun h => hrefused (.inr (.inr h))
    rw [or_iff_right hrefused]
    constructor
    · intro h
      have hsame : ∀ sectors buf, copyIn sectors (dev.address (lbaOffset + lba) count.toUInt16)
          (dev.moved (lbaOffset + lba) count.toUInt16) buf = copyIn sectors (lbaOffset.toNat + lba.toNat) count.toNat buf := by
        intro sectors buf
        have hr := ((hread sectors buf).1 hrefused).1
        have hc := ((h sectors buf).1 (congrArg Prod.snd hr)).2.1
        exact (congrArg Prod.fst hr).symm.trans hc
      obtain ⟨hn, hfirst⟩ := copyIn_inj hsame
      refine ⟨hn, ?_⟩
      split
      · next h0 =>
          have hr := ((hread (fun _ _ => 0) fun _ => 0).1 hrefused).1
          have hle := ((h (fun _ _ => 0) fun _ => 0).1 (congrArg Prod.snd hr)).1
          have hlt := dev.sectorCount.toNat_lt
          rw [hid.capacity] at hlt
          omega
      · next h0 =>
          exact hfirst fun hzero => h0 (UInt32.toNat_inj.mp (hn.symm.trans hzero))
    · rintro ⟨hn, hfirst⟩ sectors buf
      have hend' : lbaOffset.toNat + lba.toNat + count.toNat ≤ d.capacity := by
        split at hfirst
        · next h0 =>
            have hle := UInt64.le_iff_toNat_le.mp (UInt64.not_lt.mp hend)
            rw [h0] at hle ⊢
            rw [hid.capacity, UInt64.toNat_add, hstart] at hle
            have hzero : (UInt32.toUInt16 0).toUInt64.toNat = 0 := rfl
            have hzero' : (0 : UInt32).toNat = 0 := rfl
            rw [hzero] at hle
            rw [hzero']
            omega
        · next h0 =>
            have hall := hserves.2
            rw [hn, hfirst] at hall
            exact hall
      have hfirst' : ∀ sectors buf,
          copyIn sectors (dev.address (lbaOffset + lba) count.toUInt16) count.toNat buf =
              copyIn sectors (lbaOffset.toNat + lba.toNat) count.toNat buf ∧
            copyOut sectors (dev.address (lbaOffset + lba) count.toUInt16) count.toNat buf =
              copyOut sectors (lbaOffset.toNat + lba.toNat) count.toNat buf := by
        intro sectors buf
        split at hfirst
        · next h0 =>
            have hzero : (0 : UInt32).toNat = 0 := rfl
            rw [h0, hzero, copyIn_zero, copyIn_zero, copyOut_zero, copyOut_zero]
            exact ⟨rfl, rfl⟩
        · next h0 => rw [hfirst]; exact ⟨rfl, rfl⟩
      obtain ⟨hr, hrkept⟩ := (hread sectors buf).1 hrefused
      obtain ⟨-, hw⟩ := (hwrite sectors buf).1 hrefused
      rw [hn, (hfirst' sectors buf).1] at hr
      rw [hn, (hfirst' sectors buf).2] at hw
      exact ⟨fun _ => ⟨hend', congrArg Prod.fst hr, hrkept⟩, fun _ => ⟨hend', hw⟩⟩

/-- A drive of a thousand sectors without 48-bit addresses. -/
def smallDrive : Drive := ⟨fun _ _ => 0, 1000, false, .idle, 0, (0, 0), (0, 0), (0, 0), (0, 0)⟩

def smallDevice : AtaDevice := ⟨false, true, false, 1000⟩

theorem transfer_complete_small : Complete smallDevice smallDrive 0 8 255 :=
  (transfer_complete_iff smallDevice smallDrive ⟨rfl, rfl⟩ 0 8 255).mpr (.inr ⟨rfl, rfl⟩)

/-- 256 sectors: the count of the command is zero, as it has to be, and so is the number of sectors that are read. -/
theorem large_request_dropped : ¬ Complete smallDevice smallDrive 0 8 256 := by
  intro h
  have hrun := ((@ataReadSectors_run smallDevice { smallDrive with sectors := fun _ _ => 1 } (0 + 8) (UInt32.toUInt16 256)
    ⟨rfl, rfl⟩ fun _ => 0).1 (by unfold Refused Drive.Serves; decide)).1
  have hbuf := congrFun ((h (fun _ _ => 1) fun _ => 0).1 (congrArg Prod.snd hrun)).2.1 0
  have hmoved : smallDevice.moved (0 + 8) (UInt32.toUInt16 256) = 0 := by decide
  rw [hmoved, copyIn_zero] at hrun
  rw [show (ataRead smallDevice { smallDrive with sectors := fun _ _ => 1 } 0 8 256 fun _ => 0).2.1 = fun _ => 0 from
    congrArg Prod.fst hrun, copyIn] at hbuf
  rw [if_pos (by decide)] at hbuf
  exact absurd hbuf (by decide)

end Blackmount.Disk
