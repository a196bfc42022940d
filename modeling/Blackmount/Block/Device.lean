import Blackmount.Lib.Bytes
import Blackmount.Lib.Run

/-!
# Block — devices and partitions

RAM disks and disk images are regions of the kernel's memory behind a pair of callbacks.  A partition of a device is a
device of its own with the callbacks and the region of the first, and with the sector it starts at added to each
request.

* `Lineage`: what a device is a part of.
* `confined_iff`: when a request stays within the device it is made of, for every device that was ever registered.
-/

namespace Blackmount.Block
open Blackmount.Lib

abbrev Memory := UInt64 → UInt8

def memcpy (m : Memory) (dst src n : UInt64) : Memory :=
  fun a => if a - dst < n then m (src + (a - dst)) else m a

def memzero (m : Memory) (dst n : UInt64) : Memory := fun a => if a - dst < n then 0 else m a

/-- `ramdisk_ctx_t` and `image_ctx_t`. -/
structure Disk where
  data : UInt64
  sizeBytes : UInt64
  deriving DecidableEq

/-- Whose callbacks a device has. -/
inductive Driver where
  | ramdisk | image
  deriving DecidableEq

/-- `block_device_t`. -/
structure BlockDevice where
  name : List UInt8
  sectorCount : UInt64
  sectorSize : UInt32
  lbaOffset : UInt64
  driverData : Disk
  driver : Driver
  deriving DecidableEq

/-! ### The callbacks -/

/-- `byte_off` and `byte_count`, if the request passes the test the four callbacks make. -/
def span (dev : BlockDevice) (lba : UInt64) (count : UInt32) : Option (UInt64 × UInt64) :=
  let byteOff := (dev.lbaOffset + lba) * dev.sectorSize.toUInt64
  let byteCount := count.toUInt64 * dev.sectorSize.toUInt64
  if byteOff + byteCount > dev.driverData.sizeBytes then none else some (byteOff, byteCount)

def diskRead (m : Memory) (dev : BlockDevice) (lba : UInt64) (count : UInt32) (buf : UInt64) : Memory × Bool :=
  match span dev lba count with
  | none => (m, false)
  | some (byteOff, byteCount) => (memcpy m buf (dev.driverData.data + byteOff) byteCount, true)

def diskWrite (m : Memory) (dev : BlockDevice) (lba : UInt64) (count : UInt32) (buf : UInt64) : Memory × Bool :=
  match span dev lba count with
  | none => (m, false)
  | some (byteOff, byteCount) => (memcpy m (dev.driverData.data + byteOff) buf byteCount, true)

def ramdiskRead := diskRead
def ramdiskWrite := diskWrite
def imageRead := diskRead
def imageWrite := diskWrite

/-- `dev->read(dev, lba, count, buf)`. -/
def BlockDevice.read (m : Memory) (dev : BlockDevice) (lba : UInt64) (count : UInt32) (buf : UInt64) : Memory × Bool :=
  match dev.driver with
  | .ramdisk => ramdiskRead m dev lba count buf
  | .image => imageRead m dev lba count buf

/-- `dev->write(dev, lba, count, buf)`. -/
def BlockDevice.write (m : Memory) (dev : BlockDevice) (lba : UInt64) (count : UInt32) (buf : UInt64) : Memory × Bool :=
  match dev.driver with
  | .ramdisk => ramdiskWrite m dev lba count buf
  | .image => imageWrite m dev lba count buf

/-- What a fresh buffer holds after `dev->read`, unless that fails. -/
def BlockDevice.fetch (m : Memory) (dev : BlockDevice) (lba : UInt64) (count : UInt32) : Option Bytes :=
  (span dev lba count).map fun r k => m (dev.driverData.data + r.1 + UInt64.ofNat k)

/-! ### Creation -/

/-- `ramdisk_create_blockdev`; the last three are what its calls of `kmalloc` return, `none` for `NULL`. -/
def ramdiskCreateBlockdev (m : Memory) (name : List UInt8) (sizeBytes : UInt64) (data ctx dev : Option UInt64) :
    Memory × Option BlockDevice :=
  if sizeBytes = 0 ∨ sizeBytes % 512 ≠ 0 then (m, none)
  else
    match data with
    | none => (m, none)
    | some data =>
        let m := memzero m data sizeBytes
        if ctx.isNone ∨ dev.isNone then (m, none)
        else (m, some ⟨name, sizeBytes / 512, 512, 0, ⟨data, sizeBytes⟩, .ramdisk⟩)

/-- `image_create_blockdev`, with the module that `limine_get_module` finds. -/
def imageCreateBlockdev (name : List UInt8) (module : Option Disk) : Option BlockDevice :=
  module.map fun d => ⟨name, d.sizeBytes / 512, 512, 0, d, .image⟩

/-- `make_partition_name`. -/
def makePartitionName (base : List UInt8) (index : Nat) : List UInt8 :=
  base ++ 112 :: (Nat.toDigits 10 (index + 1)).map fun c => UInt8.ofNat c.toNat

/-- The fields of a partition's device that both tables set alike. -/
def partition (dev : BlockDevice) (index : Nat) (start sectors : UInt64) : BlockDevice :=
  { dev with
    name := makePartitionName dev.name index
    sectorCount := sectors
    lbaOffset := dev.lbaOffset + start }

/-! ### What a device is a part of -/

/-- A disk of so many sectors, or a part of another device: where it starts there, and its sectors. -/
inductive Lineage where
  | disk (sectors : Nat)
  | part (parent : Lineage) (start sectors : Nat)

namespace Lineage

/-- The device has sector `k`, and each device it is a part of has that sector. -/
def Has : Lineage → Nat → Prop
  | disk sectors, k => k < sectors
  | part parent start sectors, k => k < sectors ∧ parent.Has (start + k)

instance decidableHas : (l : Lineage) → (k : Nat) → Decidable (l.Has k)
  | disk _, _ => inferInstanceAs (Decidable (_ < _))
  | part parent start _, k =>
      have := decidableHas parent (start + k)
      inferInstanceAs (Decidable (_ ∧ _))

/-- The disk's sector that is the device's first. -/
def origin : Lineage → Nat
  | disk _ => 0
  | part parent start _ => parent.origin + start

/-- The sectors of the device, and of the disk. -/
def sectors : Lineage → Nat
  | disk n => n
  | part _ _ n => n

def total : Lineage → Nat
  | disk n => n
  | part parent _ _ => parent.total

theorem Has.onDisk {l : Lineage} {k : Nat} (h : l.Has k) : l.origin + k < l.total := by
  induction l generalizing k with
  | disk n =>
      have : k < n := h
      simp only [origin, total]
      omega
  | part parent start n ih =>
      have := ih h.2
      simp only [origin, total]
      omega

theorem Has.lt_sectors {l : Lineage} {k : Nat} (h : l.Has k) : k < l.sectors := by
  cases l with
  | disk n => exact h
  | part parent start n => exact h.1

end Lineage

/-- A device, with what it is a part of. -/
structure Device where
  dev : BlockDevice
  lineage : Lineage

def Device.part (d : Device) (index : Nat) (start sectors : UInt64) : Device :=
  ⟨partition d.dev index start sectors, .part d.lineage start.toNat sectors.toNat⟩

/-! ### The tables -/

structure BlockState where
  mem : Memory
  devices : List Device := []

def maxBlockDevices : Nat := 16

/-- `block_register`; no device is ever taken out, so the slots in use are the first ones. -/
def blockRegister (s : BlockState) (d : Device) : BlockState × Bool :=
  if s.devices.length < maxBlockDevices then ({ s with devices := s.devices ++ [d] }, true) else (s, false)

/-- `gpt_partition_entry_t`, the fields that are read. -/
structure GptEntry where
  typeGuid : List UInt8
  startLba : UInt64
  endLba : UInt64

def gptSignature : Nat := 0x5452415020494645
def gptEntryBytes : Nat := 128

def gptEntryAt (table : Bytes) (o : Nat) : GptEntry :=
  ⟨(List.range 16).map fun k => table (o + k), UInt64.ofNat (rd64 table (o + 32)), UInt64.ofNat (rd64 table (o + 40))⟩

def guidIsZero (g : List UInt8) : Bool := g.all (· == 0)

/-- One round of the loop of `gpt_register_partitions`, with the number of partitions registered. -/
def gptEntry (d : Device) (table : Bytes) (entrySize : Nat) (acc : BlockState × Nat) (i : Nat) : BlockState × Nat :=
  let entry := gptEntryAt table (i * entrySize % 2 ^ 32)
  if guidIsZero entry.typeGuid then acc
  else if entry.startLba = 0 ∨ entry.endLba < entry.startLba then acc
  else
    let r := blockRegister acc.1 (d.part i entry.startLba (entry.endLba - entry.startLba + 1))
    (r.1, if r.2 then acc.2 + 1 else acc.2)

/-- `gpt_register_partitions`.  `beyond` is what lies behind the table's buffer, which an entry can reach when a number
wraps; an entry larger than a sector makes the division fault. -/
def gptRegisterPartitions (s : BlockState) (d : Device) (beyond : Bytes) : BlockState × Bool :=
  match d.dev.fetch s.mem 1 1 with
  | none => (s, false)
  | some header =>
      let entryLba := UInt64.ofNat (rd64 header 72)
      let entryCount := rd32 header 80
      let entrySize := rd32 header 84
      if rd64 header 0 ≠ gptSignature then (s, false)
      else if entrySize < gptEntryBytes then (s, false)
      else
        let entriesPerSector := d.dev.sectorSize.toNat / entrySize
        if entriesPerSector = 0 then (s, false)
        else
          let totalSectors := (entryCount + entriesPerSector - 1) % 2 ^ 32 / entriesPerSector
          match d.dev.fetch s.mem entryLba (UInt32.ofNat totalSectors) with
          | none => (s, false)
          | some read =>
              let table : Bytes := fun k => if k < totalSectors * d.dev.sectorSize.toNat then read k else beyond k
              let r := (List.range entryCount).foldl (gptEntry d table entrySize) (s, 0)
              (r.1, decide (0 < r.2))

/-- `mbr_partition_entry_t`, the fields that are read. -/
structure MbrEntry where
  type : UInt8
  lbaStart : UInt64
  sectorCount : UInt64

def mbrSignature : Nat := 0xAA55

def mbrEntryAt (mbr : Bytes) (i : Nat) : MbrEntry :=
  let o := 446 + 16 * i
  ⟨mbr (o + 4), UInt64.ofNat (rd32 mbr (o + 8)), UInt64.ofNat (rd32 mbr (o + 12))⟩

def mbrEntry (d : Device) (mbr : Bytes) (acc : BlockState × Nat) (i : Nat) : BlockState × Nat :=
  let entry := mbrEntryAt mbr i
  if entry.type = 0 ∨ entry.sectorCount = 0 then acc
  else
    let r := blockRegister acc.1 (d.part i entry.lbaStart entry.sectorCount)
    (r.1, if r.2 then acc.2 + 1 else acc.2)

/-- `mbr_register_partitions`. -/
def mbrRegisterPartitions (s : BlockState) (d : Device) : BlockState × Bool :=
  match d.dev.fetch s.mem 0 1 with
  | none => (s, false)
  | some mbr =>
      if rd16 mbr 510 ≠ mbrSignature then (s, false)
      else
        let r := (List.range 4).foldl (mbrEntry d mbr) (s, 0)
        (r.1, decide (0 < r.2))

/-! ### Runs -/

/-- A device is created and registered, a registered one is searched for partitions, or memory changes. -/
inductive BlockOp where
  | ramdisk (name : List UInt8) (sizeBytes : UInt64) (data ctx dev : Option UInt64)
  | image (name : List UInt8) (module : Option Disk)
  | gpt (slot : Nat) (beyond : Bytes)
  | mbr (slot : Nat)
  | memory (m : Memory)

/-- A disk that has just been created. -/
def Device.whole (dev : BlockDevice) : Device := ⟨dev, .disk dev.sectorCount.toNat⟩

def register? (s : BlockState) : Option BlockDevice → BlockState
  | none => s
  | some dev => (blockRegister s (.whole dev)).1

def blockStep (s : BlockState) : BlockOp → BlockState
  | .ramdisk name sizeBytes data ctx dev =>
      let r := ramdiskCreateBlockdev s.mem name sizeBytes data ctx dev
      register? { s with mem := r.1 } r.2
  | .image name module => register? s (imageCreateBlockdev name module)
  | .gpt slot beyond =>
      match s.devices[slot]? with
      | none => s
      | some d => (gptRegisterPartitions s d beyond).1
  | .mbr slot =>
      match s.devices[slot]? with
      | none => s
      | some d => (mbrRegisterPartitions s d).1
  | .memory m => { s with mem := m }

def blockRun (m : Memory) (os : List BlockOp) : BlockState := os.foldl blockStep { mem := m }

/-- The device's fields fit what it is a part of. -/
structure Device.Sound (d : Device) : Prop where
  size : d.dev.sectorSize = 512
  sectors : d.lineage.sectors = d.dev.sectorCount.toNat
  offset : d.dev.lbaOffset = UInt64.ofNat d.lineage.origin
  total : d.lineage.total = d.dev.driverData.sizeBytes.toNat / 512

theorem Device.Sound.part {d : Device} (h : d.Sound) (index : Nat) (start sectors : UInt64) :
    (d.part index start sectors).Sound := by
  refine ⟨h.size, rfl, ?_, h.total⟩
  simp only [Device.part, partition, Lineage.origin, h.offset, UInt64.ofNat_add, UInt64.ofNat_toNat]

/-- All devices in the table. -/
def AllSound (s : BlockState) : Prop := ∀ d ∈ s.devices, d.Sound

theorem AllSound.register {s : BlockState} (h : AllSound s) {d : Device} (hd : d.Sound) :
    AllSound (blockRegister s d).1 := by
  simp only [blockRegister]
  split
  · intro e he
    rcases List.mem_append.mp he with he | he
    · exact h e he
    · rw [List.mem_singleton.mp he]
      exact hd
  · exact h

/-- A loop that registers parts of one device. -/
theorem AllSound.loop {d : Device} (hd : d.Sound) {f : BlockState × Nat → Nat → BlockState × Nat}
    (hf : ∀ acc i, (f acc i).1 = acc.1 ∨
      ∃ index start sectors, (f acc i).1 = (blockRegister acc.1 (d.part index start sectors)).1)
    (is : List Nat) {acc : BlockState × Nat} (h : AllSound acc.1) : AllSound (is.foldl f acc).1 := by
  induction is generalizing acc with
  | nil => exact h
  | cons i is ih =>
      refine ih ?_
      rcases hf acc i with heq | ⟨index, start, sectors, heq⟩
      · rw [heq]
        exact h
      · rw [heq]
        exact h.register (hd.part index start sectors)

theorem AllSound.gpt {s : BlockState} (h : AllSound s) {d : Device} (hd : d.Sound) (beyond : Bytes) :
    AllSound (gptRegisterPartitions s d beyond).1 := by
  simp only [gptRegisterPartitions]
  split
  · exact h
  · split
    · exact h
    · split
      · exact h
      · split
        · exact h
        · split
          · exact h
          · refine AllSound.loop hd (fun acc i => ?_) _ h
            simp only [gptEntry]
            split
            · exact .inl rfl
            · split
              · exact .inl rfl
              · exact .inr ⟨_, _, _, rfl⟩

theorem AllSound.mbr {s : BlockState} (h : AllSound s) {d : Device} (hd : d.Sound) :
    AllSound (mbrRegisterPartitions s d).1 := by
  simp only [mbrRegisterPartitions]
  split
  · exact h
  · split
    · exact h
    · refine AllSound.loop hd (fun acc i => ?_) _ h
      simp only [mbrEntry]
      split
      · exact .inl rfl
      · exact .inr ⟨_, _, _, rfl⟩

theorem whole_sound (name : List UInt8) (d : Disk) (driver : Driver) :
    (Device.whole ⟨name, d.sizeBytes / 512, 512, 0, d, driver⟩).Sound :=
  ⟨rfl, rfl, rfl, UInt64.toNat_div _ _⟩

theorem AllSound.whole {s : BlockState} (h : AllSound s) (name : List UInt8) (d : Disk) (driver : Driver) :
    AllSound (register? s (some ⟨name, d.sizeBytes / 512, 512, 0, d, driver⟩)) :=
  h.register (whole_sound name d driver)

theorem AllSound.step {s : BlockState} (h : AllSound s) (o : BlockOp) : AllSound (blockStep s o) := by
  cases o with
  | ramdisk name sizeBytes data ctx dev =>
      simp only [blockStep, ramdiskCreateBlockdev]
      split
      · exact h
      · cases data with
        | none => exact h
        | some base =>
            have hm : AllSound { s with mem := memzero s.mem base sizeBytes } := h
            simp only
            split
            · exact hm
            · exact hm.whole name ⟨base, sizeBytes⟩ .ramdisk
  | image name module =>
      cases module with
      | none => exact h
      | some d => exact h.whole name d .image
  | gpt slot beyond =>
      simp only [blockStep]
      split
      · exact h
      · next d hd => exact h.gpt (h d (List.mem_of_getElem? hd)) beyond
  | mbr slot =>
      simp only [blockStep]
      split
      · exact h
      · next d hd => exact h.mbr (h d (List.mem_of_getElem? hd))
  | memory m => exact h

theorem allSound_run (m : Memory) (os : List BlockOp) : AllSound (blockRun m os) := by
  have : ∀ s : BlockState, AllSound s → AllSound (os.foldl blockStep s) := by
    induction os with
    | nil => exact fun s h => h
    | cons o os ih => exact fun s h => ih _ (h.step o)
  exact this _ fun d hd => by cases hd

/-! ### Requests stay within the device -/

/-- Where the device's sector `lba` lies in memory. -/
def Device.sectorAt (d : Device) (lba : UInt64) : UInt64 :=
  d.dev.driverData.data + UInt64.ofNat ((d.lineage.origin + lba.toNat) * 512)

/-- The sectors of a request are the device's own and those of all it is a part of, and are on the disk. -/
def Device.Holds (d : Device) (lba : UInt64) (count : UInt32) : Prop :=
  ∀ k < count.toNat, lba.toNat + k < d.dev.sectorCount.toNat ∧ d.lineage.Has (lba.toNat + k) ∧
    (d.lineage.origin + lba.toNat + k + 1) * 512 ≤ d.dev.driverData.sizeBytes.toNat

/-- **A request is confined**: each callback refuses it without a change, or copies its sectors, which the device has. -/
structure Confined (d : Device) (lba : UInt64) (count : UInt32) : Prop where
  read : ∀ m buf, d.dev.read m lba count buf = (m, false) ∨
    d.dev.read m lba count buf = (memcpy m buf (d.sectorAt lba) (count.toUInt64 * 512), true) ∧ d.Holds lba count
  write : ∀ m buf, d.dev.write m lba count buf = (m, false) ∨
    d.dev.write m lba count buf = (memcpy m (d.sectorAt lba) buf (count.toUInt64 * 512), true) ∧ d.Holds lba count

/-- The end of the request in bytes, as 64 bits hold it, is past the end of the disk. -/
def Device.Past (d : Device) (lba : UInt64) (count : UInt32) : Prop :=
  d.dev.driverData.sizeBytes.toNat < (d.lineage.origin + lba.toNat + count.toNat) * 512 % 2 ^ 64

section Request

variable {d : Device} {lba : UInt64} {count : UInt32}

theorem read_eq (m : Memory) (buf : UInt64) : d.dev.read m lba count buf = diskRead m d.dev lba count buf := by
  simp only [BlockDevice.read]
  split
  · rfl
  · rfl

theorem write_eq (m : Memory) (buf : UInt64) : d.dev.write m lba count buf = diskWrite m d.dev lba count buf := by
  simp only [BlockDevice.write]
  split
  · rfl
  · rfl

/-- The test, in numbers. -/
theorem Device.Sound.span (hd : d.Sound) :
    (d.Past lba count → span d.dev lba count = none) ∧
    (¬ d.Past lba count → span d.dev lba count =
      some (UInt64.ofNat ((d.lineage.origin + lba.toNat) * 512), count.toUInt64 * 512)) := by
  have hoff : (d.dev.lbaOffset + lba) * d.dev.sectorSize.toUInt64 =
      UInt64.ofNat ((d.lineage.origin + lba.toNat) * 512) := by
    rw [hd.size, hd.offset, UInt64.ofNat_mul, UInt64.ofNat_add, UInt64.ofNat_toNat]
    rfl
  have hcount : count.toUInt64 * d.dev.sectorSize.toUInt64 = count.toUInt64 * 512 := by
    rw [hd.size]
    rfl
  have hend : (UInt64.ofNat ((d.lineage.origin + lba.toNat) * 512) + count.toUInt64 * 512).toNat =
      (d.lineage.origin + lba.toNat + count.toNat) * 512 % 2 ^ 64 := by
    rw [UInt64.toNat_add, UInt64.toNat_ofNat', UInt64.toNat_mul, UInt32.toNat_toUInt64]
    simp only [UInt64.reduceToNat]
    omega
  simp only [Block.span, hoff, hcount, gt_iff_lt, UInt64.lt_iff_toNat_lt, hend]
  exact ⟨fun h => if_pos h, fun h => if_neg h⟩

/-- **When a request is confined.**  A device that was registered keeps a request within itself and within what it is
a part of just if it has the sectors asked for, or the end of the request, which is all that is tested, lies past the
end of the disk. -/
theorem confined_iff (m : Memory) (os : List BlockOp) (d : Device) (hd : d ∈ (blockRun m os).devices) (lba : UInt64)
    (count : UInt32) :
    Confined d lba count ↔ (∀ k < count.toNat, d.lineage.Has (lba.toNat + k)) ∨ d.Past lba count := by
  have hs : d.Sound := allSound_run m os d hd
  have hholds : (∀ k < count.toNat, d.lineage.Has (lba.toNat + k)) ↔ d.Holds lba count := by
    refine forall₂_congr fun k _ => ⟨fun h => ⟨?_, h, ?_⟩, fun h => h.2.1⟩
    · rw [← hs.sectors]
      exact h.lt_sectors
    · have := h.onDisk
      rw [hs.total] at this
      omega
  rw [hholds]
  by_cases hpast : d.Past lba count
  · have hspan := hs.span.1 hpast
    refine ⟨fun _ => .inr hpast, fun _ => ⟨fun m buf => .inl ?_, fun m buf => .inl ?_⟩⟩
    · rw [read_eq, diskRead, hspan]
    · rw [write_eq, diskWrite, hspan]
  · have hspan := hs.span.2 hpast
    have hread : ∀ m buf, d.dev.read m lba count buf = (memcpy m buf (d.sectorAt lba) (count.toUInt64 * 512), true) := by
      intro m buf
      rw [read_eq, diskRead, hspan]
      rfl
    have hwrite : ∀ m buf,
        d.dev.write m lba count buf = (memcpy m (d.sectorAt lba) buf (count.toUInt64 * 512), true) := by
      intro m buf
      rw [write_eq, diskWrite, hspan]
      rfl
    constructor
    · intro h
      rcases h.read m 0 with hno | hyes
      · rw [hread] at hno
        cases congrArg Prod.snd hno
      · exact .inl hyes.2
    · rintro (h | h)
      · exact ⟨fun m buf => .inr ⟨hread m buf, h⟩, fun m buf => .inr ⟨hwrite m buf, h⟩⟩
      · exact absurd h hpast

end Request

/-- The first sector of a disk at 0x1000: one partition, of the disk's second sector. -/
def onePartition : Memory := fun a =>
  if a = 0x11c2 then 0x83 else if a = 0x11c6 then 1 else if a = 0x11ca then 1 else if a = 0x11fe then 0x55
  else if a = 0x11ff then 0xAA else 0

/-- A RAM disk of eight sectors is created, written to and searched for partitions. -/
def partitionRun : List BlockOp :=
  [.ramdisk [114] 4096 (some 0x1000) (some 0) (some 0), .memory onePartition, .mbr 0]

def partitioned : Device :=
  ⟨⟨[114, 112, 49], 1, 512, 1, ⟨0x1000, 4096⟩, .ramdisk⟩, .part (.disk 8) 1 1⟩

theorem partitioned_mem : partitioned ∈ (blockRun (fun _ => 0) partitionRun).devices := by
  have hrun : (blockRun (fun _ => 0) partitionRun).devices =
      [.whole ⟨[114], 8, 512, 0, ⟨0x1000, 4096⟩, .ramdisk⟩, partitioned] := rfl
  rw [hrun]
  exact List.mem_cons_of_mem _ (List.mem_singleton.mpr rfl)

/-- The partition's own sector. -/
theorem confined_iff_partitioned : Confined partitioned 0 1 :=
  (confined_iff (fun _ => 0) partitionRun partitioned partitioned_mem 0 1).mpr (.inl (by decide))

/-- The sector after the partition's last. -/
theorem request_beyond_partition :
    partitioned ∈ (blockRun (fun _ => 0) partitionRun).devices ∧ partitioned.dev.sectorCount = 1 ∧
      (partitioned.dev.read onePartition 1 1 0x8000).2 = true ∧ ¬ Confined partitioned 1 1 := by
  refine ⟨partitioned_mem, rfl, rfl, fun h => ?_⟩
  rcases h.read onePartition 0x8000 with hno | hyes
  · cases congrArg Prod.snd hno
  · exact absurd (hyes.2 0 (by decide)).1 (by decide)

end Blackmount.Block
