import Blackmount.Lib.Bytes

/-!
# FAT — the driver

`fat.c` as it is: sectors go through buffers of 512 bytes on the stack, and each access to one is checked here.  `none` is
no outcome: an access outside a buffer, a division by zero, or a loop that has used up its fuel.
-/

namespace Blackmount.Fat
open Blackmount.Lib

abbrev Str := List UInt8

/-! ### The device -/

structure Device where
  data : Nat → Bytes
  sectorCount : Nat
  readable : Nat → Bool := fun _ => true
  writable : Nat → Bool := fun _ => true

/-- `dev->read` of one sector. -/
def Device.read (dev : Device) (lba : Nat) : Option Bytes := if dev.readable lba then some (dev.data lba) else none

/-- `dev->write` of one sector. -/
def Device.write (dev : Device) (lba : Nat) (sector : Bytes) : Option Device :=
  if dev.writable lba then some { dev with data := Function.update dev.data lba sector } else none

def sectorBytes : Nat := 512

/-- An access of `n` bytes at offset `o` of a sector buffer. -/
def access (o n : Nat) : Option Unit := if o + n ≤ sectorBytes then some () else none

/-! ### Mounting -/

inductive FatType where
  | fat12 | fat16 | fat32
  deriving DecidableEq

/-- `fat_fs_t`. -/
structure FatFs where
  type : FatType
  fatStart : Nat
  dataStart : Nat
  rootDir : Nat
  rootCluster : Nat
  spc : Nat
  bps : Nat
  rootEntries : Nat

/-- `fat_mount`; the inner `none` is `NULL`. -/
def fatMount (dev : Device) : Option (Option FatFs) :=
  match dev.read 0 with
  | none => some none
  | some sector =>
      let bps := rd16 sector 11
      let spc := (sector 13).toNat
      let rootEntries := rd16 sector 17
      let totalSectors := if rd16 sector 19 ≠ 0 then rd16 sector 19 else rd32 sector 32
      let is32 := rd16 sector 22 = 0
      let fatSize := if is32 then rd32 sector 36 else rd16 sector 22
      if bps = 0 then none
      else
        let rootDirSectors := (rootEntries * 32 + (bps - 1)) / bps
        let fatStart := rd16 sector 14
        let rootDir := (fatStart + (sector 16).toNat * fatSize) % 2 ^ 32
        let dataStart := (rootDir + rootDirSectors) % 2 ^ 32
        let dataSectors := (totalSectors + 2 ^ 32 - dataStart) % 2 ^ 32
        if spc = 0 then none
        else
          let clusters := dataSectors / spc
          some (some {
            type := if is32 then .fat32 else if clusters < 4085 then .fat12 else .fat16
            fatStart, dataStart, rootDir, spc, bps, rootEntries
            rootCluster := if is32 then rd32 sector 44 else 0 })

/-! ### The table -/

/-- What `fat_get_next_cluster` returns at the end of a chain. -/
def endOfChain : Nat := 0xFFFFFFFF

/-- The twelve bits of an entry of FAT12. -/
def entry12 (cluster value : Nat) : Nat :=
  let next := if cluster % 2 = 1 then value / 16 else value % 4096
  if 0x0FF8 ≤ next then endOfChain else next

/-- `fat_get_next_cluster`. -/
def fatGetNextCluster (fs : FatFs) (dev : Device) (cluster : Nat) : Option Nat :=
  match fs.type with
  | .fat12 =>
      let fatOffset := (cluster + cluster / 2) % 2 ^ 32
      let fatSector := (fs.fatStart + fatOffset / fs.bps) % 2 ^ 32
      let entryOffset := fatOffset % fs.bps
      match dev.read fatSector with
      | none => some 0
      | some sector =>
          if entryOffset = fs.bps - 1 then
            match dev.read ((fatSector + 1) % 2 ^ 32) with
            | none => some 0
            | some sector2 => do
                access entryOffset 1
                return entry12 cluster ((sector entryOffset).toNat + 256 * (sector2 0).toNat)
          else do
            access entryOffset 2
            return entry12 cluster (rd16 sector entryOffset)
  | .fat16 =>
      let fatOffset := cluster * 2 % 2 ^ 32
      let entryOffset := fatOffset % fs.bps
      match dev.read ((fs.fatStart + fatOffset / fs.bps) % 2 ^ 32) with
      | none => some 0
      | some sector => do
          access entryOffset 2
          return if 0xFFF8 ≤ rd16 sector entryOffset then endOfChain else rd16 sector entryOffset
  | .fat32 =>
      let fatOffset := cluster * 4 % 2 ^ 32
      let entryOffset := fatOffset % fs.bps
      match dev.read ((fs.fatStart + fatOffset / fs.bps) % 2 ^ 32) with
      | none => some 0
      | some sector => do
          access entryOffset 4
          let next := rd32 sector entryOffset % 2 ^ 28
          return if 0x0FFFFFF8 ≤ next then endOfChain else next

/-- `fat_cluster_to_sector`. -/
def fatClusterToSector (fs : FatFs) (cluster : Nat) : Nat :=
  if cluster < 2 then 0 else (fs.dataStart + (cluster - 2) * fs.spc) % 2 ^ 32

/-- The loop of `fat_find_free_cluster`, with `left` clusters to go. -/
def findFree (fs : FatFs) (dev : Device) : Nat → Nat → Option Nat
  | 0, _ => some endOfChain
  | left + 1, cluster =>
      match fs.type with
      | .fat12 => some endOfChain
      | .fat16 =>
          let fatOffset := cluster * 2 % 2 ^ 32
          match dev.read ((fs.fatStart + fatOffset / fs.bps) % 2 ^ 32) with
          | none => some endOfChain
          | some sector => do
              access (fatOffset % fs.bps) 2
              if rd16 sector (fatOffset % fs.bps) = 0 then return cluster else findFree fs dev left (cluster + 1)
      | .fat32 =>
          let fatOffset := cluster * 4 % 2 ^ 32
          match dev.read ((fs.fatStart + fatOffset / fs.bps) % 2 ^ 32) with
          | none => some endOfChain
          | some sector => do
              access (fatOffset % fs.bps) 4
              if rd32 sector (fatOffset % fs.bps) % 2 ^ 28 = 0 then return cluster else findFree fs dev left (cluster + 1)

/-- The clusters of the device, as `fat_find_free_cluster` counts them. -/
def totalClusters (fs : FatFs) (dev : Device) : Nat := (dev.sectorCount % 2 ^ 32 + 2 ^ 32 - fs.dataStart) % 2 ^ 32 / fs.spc

/-- `fat_find_free_cluster`. -/
def fatFindFreeCluster (fs : FatFs) (dev : Device) : Option Nat :=
  findFree fs dev ((totalClusters fs dev + 2) % 2 ^ 32 - 2) 2

/-- `fat_set_fat_entry`, whose result its callers ignore. -/
def fatSetFatEntry (fs : FatFs) (dev : Device) (cluster next : Nat) : Option Device :=
  match fs.type with
  | .fat12 => some dev
  | .fat16 =>
      let fatOffset := cluster * 2 % 2 ^ 32
      let fatSector := (fs.fatStart + fatOffset / fs.bps) % 2 ^ 32
      match dev.read fatSector with
      | none => some dev
      | some sector => do
          access (fatOffset % fs.bps) 2
          return (dev.write fatSector (wr16 sector (fatOffset % fs.bps) next)).getD dev
  | .fat32 =>
      let fatOffset := cluster * 4 % 2 ^ 32
      let fatSector := (fs.fatStart + fatOffset / fs.bps) % 2 ^ 32
      match dev.read fatSector with
      | none => some dev
      | some sector => do
          access (fatOffset % fs.bps) 4
          return (dev.write fatSector (wr32 sector (fatOffset % fs.bps) (next % 2 ^ 28))).getD dev

/-! ### Directories -/

/-- `fat_dir_entry_t`, the fields that are read. -/
structure DirEntry where
  name : List UInt8
  attr : UInt8
  clusterHigh : Nat
  clusterLow : Nat
  size : Nat

def dirEntryBytes : Nat := 32

def entryAt (sector : Bytes) (o : Nat) : DirEntry where
  name := (List.range 11).map fun k => sector (o + k)
  attr := sector (o + 11)
  clusterHigh := rd16 sector (o + 20)
  clusterLow := rd16 sector (o + 26)
  size := rd32 sector (o + 28)

/-- The upper case of a letter of ASCII. -/
def upper (c : UInt8) : UInt8 := if 97 ≤ c ∧ c ≤ 122 then c - 32 else c

/-- `fat_name_to_83`. -/
def fatNameTo83 (name : Str) : List UInt8 :=
  let base := (name.takeWhile fun c => c ≠ 46 ∧ c ≠ 47).take 8
  let ext := match name.drop base.length with
    | 46 :: rest => (rest.takeWhile fun c => c ≠ 47).take 3
    | _ => []
  base.map upper ++ List.replicate (8 - base.length) 32 ++ (ext.map upper ++ List.replicate (3 - ext.length) 32)

/-- What the loop over the entries of a sector comes to: an end marker, the entry at an offset, or neither. -/
inductive Scan where
  | marker
  | found (offset : Nat)
  | more

/-- The entries of a sector from `entry` on, `left` of them. -/
def scanEntries (sector : Bytes) (fatName : List UInt8) : Nat → Nat → Option Scan
  | 0, _ => some .more
  | left + 1, entry => do
      access (entry * dirEntryBytes) dirEntryBytes
      let e := entryAt sector (entry * dirEntryBytes)
      if sector (entry * dirEntryBytes) = 0 then return .marker
      else if sector (entry * dirEntryBytes) = 0xE5 then scanEntries sector fatName left (entry + 1)
      else if e.attr &&& 0x08 ≠ 0 then scanEntries sector fatName left (entry + 1)
      else if e.name = fatName then return .found (entry * dirEntryBytes)
      else scanEntries sector fatName left (entry + 1)

/-- `out_entry`, `out_sector` and `out_offset`. -/
structure Found where
  entry : DirEntry
  sector : Nat
  offset : Nat

/-- What the loop over sectors comes to: the search ends without success, with an entry, or goes on. -/
inductive Search where
  | ended
  | found (f : Found)
  | more

def searchSectors (fs : FatFs) (dev : Device) (fatName : List UInt8) : List Nat → Option Search
  | [] => some .more
  | lba :: rest =>
      match dev.read lba with
      | none => some .ended
      | some sector => do
          match ← scanEntries sector fatName (fs.bps / dirEntryBytes) 0 with
          | .marker => return .ended
          | .found o => return .found ⟨entryAt sector o, lba, o⟩
          | .more => searchSectors fs dev fatName rest

/-- The sectors of the fixed root directory, and of a cluster. -/
def FatFs.rootSectors (fs : FatFs) : List Nat :=
  (List.range ((fs.rootEntries * 32 + (fs.bps - 1)) / fs.bps)).map fun i => (fs.rootDir + i) % 2 ^ 32

def FatFs.clusterSectors (fs : FatFs) (cluster : Nat) : List Nat :=
  (List.range fs.spc).map fun sec => (fatClusterToSector fs cluster + sec) % 2 ^ 32

/-- `fat_search_dir_cluster`. -/
def fatSearchDirCluster (fs : FatFs) (dev : Device) (fatName : List UInt8) : Nat → Nat → Option (Option Found)
  | 0, _ => none
  | fuel + 1, current =>
      if current ≠ endOfChain ∧ 2 ≤ current then do
        match ← searchSectors fs dev fatName (fs.clusterSectors current) with
        | .ended => return none
        | .found f => return some f
        | .more => fatSearchDirCluster fs dev fatName fuel (← fatGetNextCluster fs dev current)
      else some none

/-- `fat_search_root_fixed`. -/
def fatSearchRootFixed (fs : FatFs) (dev : Device) (fatName : List UInt8) : Option (Option Found) := do
  match ← searchSectors fs dev fatName fs.rootSectors with
  | .found f => return some f
  | _ => return none

/-- A directory: the fixed root, or a chain of clusters. -/
inductive Dir where
  | root
  | chain (cluster : Nat)
  deriving DecidableEq

def FatFs.rootDirectory (fs : FatFs) : Dir := if fs.type = .fat32 then .chain fs.rootCluster else .root

/-- The search that is made in it. -/
def searchDir (fuel : Nat) (fs : FatFs) (dev : Device) (fatName : List UInt8) : Dir → Option (Option Found)
  | .root => fatSearchRootFixed fs dev fatName
  | .chain cluster => fatSearchDirCluster fs dev fatName fuel cluster

/-- The cluster of an entry. -/
def FatFs.entryCluster (fs : FatFs) (e : DirEntry) : Nat :=
  if fs.type = .fat32 then e.clusterLow + 65536 * e.clusterHigh else e.clusterLow

def DirEntry.isDir (e : DirEntry) : Bool := e.attr &&& 0x10 != 0

/-- The next component of a path, at most 255 bytes of it, and what follows it and a slash. -/
def nextComponent (path : Str) : Str × Str :=
  let component := (path.takeWhile (· ≠ 47)).take 255
  match path.drop component.length with
  | 47 :: rest => (component, rest)
  | rest => (component, rest)

def skipSlash : Str → Str
  | 47 :: rest => rest
  | path => path

/-! ### Files -/

/-- `fat_file_t`, apart from `fs`.  All of them come from `fat_open` and `fat_create`, with the offset of an entry. -/
structure FatFile where
  cluster : Nat
  size : Nat
  pos : Nat
  dirSector : Nat
  dirOffset : Nat

/-- The loop of `fat_open` over the components; `n` bounds the length of the path. -/
def openLoop (fuel : Nat) (fs : FatFs) (dev : Device) : Nat → Str → Dir → Option (Option FatFile)
  | 0, _, _ => some none
  | n + 1, path, dir =>
      if path = [] then some none
      else
        let (component, rest) := nextComponent path
        if component = [] then openLoop fuel fs dev n rest dir
        else do
          match ← searchDir fuel fs dev (fatNameTo83 component) dir with
          | none => return none
          | some f =>
              if rest ≠ [] then
                if f.entry.isDir then openLoop fuel fs dev n rest (.chain (fs.entryCluster f.entry)) else return none
              else return some ⟨fs.entryCluster f.entry, f.entry.size, 0, f.sector, f.offset⟩

/-- `fat_open`. -/
def fatOpen (fuel : Nat) (fs : FatFs) (dev : Device) (path : Str) : Option (Option FatFile) :=
  let path := skipSlash path
  openLoop fuel fs dev path.length path fs.rootDirectory

/-- The loop of `fat_create` over the components of the directory's path. -/
def walkLoop (fuel : Nat) (fs : FatFs) (dev : Device) : Nat → Str → Dir → Option (Option Dir)
  | 0, _, dir => some (some dir)
  | n + 1, path, dir =>
      if path = [] then some (some dir)
      else
        let (component, rest) := nextComponent path
        if component = [] then walkLoop fuel fs dev n rest dir
        else do
          match ← searchDir fuel fs dev (fatNameTo83 component) dir with
          | none => return none
          | some f =>
              if f.entry.isDir then walkLoop fuel fs dev n rest (.chain (fs.entryCluster f.entry)) else return none

/-- The first free entry of a sector from `entry` on. -/
def scanFree (sector : Bytes) : Nat → Nat → Option (Option Nat)
  | 0, _ => some none
  | left + 1, entry => do
      access (entry * dirEntryBytes) dirEntryBytes
      if sector (entry * dirEntryBytes) = 0 ∨ sector (entry * dirEntryBytes) = 0xE5 then
        return some (entry * dirEntryBytes)
      else scanFree sector left (entry + 1)

/-- What the loop for a free entry comes to. -/
inductive Free where
  | ended
  | slot (sector offset : Nat)
  | more

def freeInSectors (fs : FatFs) (dev : Device) : List Nat → Option Free
  | [] => some .more
  | lba :: rest =>
      match dev.read lba with
      | none => some .ended
      | some sector => do
          match ← scanFree sector (fs.bps / dirEntryBytes) 0 with
          | some o => return .slot lba o
          | none => freeInSectors fs dev rest

/-- `fat_find_free_entry_in_cluster`. -/
def fatFindFreeEntryInCluster (fs : FatFs) (dev : Device) : Nat → Nat → Option (Option (Nat × Nat))
  | 0, _ => none
  | fuel + 1, current =>
      if current ≠ endOfChain ∧ 2 ≤ current then do
        match ← freeInSectors fs dev (fs.clusterSectors current) with
        | .ended => return none
        | .slot lba o => return some (lba, o)
        | .more => fatFindFreeEntryInCluster fs dev fuel (← fatGetNextCluster fs dev current)
      else some none

/-- A free entry of a directory. -/
def findFreeEntry (fuel : Nat) (fs : FatFs) (dev : Device) : Dir → Option (Option (Nat × Nat))
  | .root => do
      match ← freeInSectors fs dev fs.rootSectors with
      | .slot lba o => return some (lba, o)
      | _ => return none
  | .chain cluster => fatFindFreeEntryInCluster fs dev fuel cluster

/-- The new entry in its sector. -/
def putEntry (sector : Bytes) (o : Nat) (fatName : List UInt8) : Bytes :=
  let sector := splice sector o 11 fun k => fatName.getD k 0
  let sector := wr8 sector (o + 11) 0x20
  wr16 (wr16 (wr32 sector (o + 28) 0) (o + 26) 0) (o + 20) 0

/-- The array that the path of the directory is copied to. -/
def dirPathBytes : Nat := 256

/-- `fat_create`.  In the root directory the sector is still in the buffer when the entry is written, in a chain of clusters
it is read again. -/
def fatCreate (fuel : Nat) (fs : FatFs) (dev : Device) (name : Str) : Option (Option FatFile × Device) :=
  let name := skipSlash name
  let filename := (name.reverse.takeWhile (· ≠ 47)).reverse
  let dirPath := name.take (name.length - filename.length - 1)
  if dirPathBytes ≤ dirPath.length then none
  else do
    match ← walkLoop fuel fs dev dirPath.length dirPath fs.rootDirectory with
    | none => return (none, dev)
    | some dir =>
        match ← findFreeEntry fuel fs dev dir with
        | none => return (none, dev)
        | some (lba, o) =>
            match dev.read lba with
            | none => return (none, dev)
            | some sector =>
                match dev.write lba (putEntry sector o (fatNameTo83 filename)) with
                | none => return (none, dev)
                | some dev => return (some ⟨0, 0, 0, lba, o⟩, dev)

/-- The clusters before the position of a read; `none` inside for the end of the chain. -/
def readSkip (fs : FatFs) (dev : Device) : Nat → Nat → Option (Option Nat)
  | 0, cur => some (some cur)
  | n + 1, cur => do
      let next ← fatGetNextCluster fs dev cur
      if next = endOfChain then return none else readSkip fs dev n next

/-- The loop of `fat_read`: `left` bytes are still wanted, `buf` has come, and there is room for `room` bytes in all. -/
def readLoop (fs : FatFs) (dev : Device) (room : Nat) : Nat → Nat → Nat → Nat → List UInt8 → Option (List UInt8)
  | 0, _, _, _, _ => none
  | fuel + 1, cur, off, left, buf =>
      if left = 0 ∨ cur = endOfChain then some buf
      else if fs.spc ≤ off / fs.bps then do
        readLoop fs dev room fuel (← fatGetNextCluster fs dev cur) 0 left buf
      else
        match dev.read ((fatClusterToSector fs cur + off / fs.bps) % 2 ^ 32) with
        | none => some buf
        | some sector => do
            let n := min (fs.bps - off % fs.bps) left
            access (off % fs.bps) n
            if room < buf.length + n then none
            else
              readLoop fs dev room fuel cur (off + n) (left - n) (buf ++ (List.range n).map fun k => sector (off % fs.bps + k))

/-- `fat_read`: the bytes that are copied to the caller's buffer of `bytes` bytes. -/
def fatRead (fuel : Nat) (fs : FatFs) (dev : Device) (file : FatFile) (bytes : Nat) : Option (List UInt8 × FatFile) :=
  let left := if file.size < (file.pos + bytes) % 2 ^ 32 then (file.size + 2 ^ 32 - file.pos) % 2 ^ 32 else bytes
  if bytes = 0 ∨ left = 0 then some ([], file)
  else do
    match ← readSkip fs dev (file.pos / (fs.spc * fs.bps)) file.cluster with
    | none => return ([], file)
    | some cur =>
        let buf ← readLoop fs dev bytes fuel cur (file.pos % (fs.spc * fs.bps)) left []
        return (buf, { file with pos := (file.pos + buf.length) % 2 ^ 32 })

/-- `fat_sync_dir_entry`. -/
def fatSyncDirEntry (fs : FatFs) (dev : Device) (file : FatFile) : Option Device :=
  match dev.read file.dirSector with
  | none => some dev
  | some sector => do
      access file.dirOffset dirEntryBytes
      let sector := wr16 (wr32 sector (file.dirOffset + 28) file.size) (file.dirOffset + 26) file.cluster
      let sector := if fs.type = .fat32 then wr16 sector (file.dirOffset + 20) (file.cluster / 65536) else sector
      return (dev.write file.dirSector sector).getD dev

/-- The next cluster of a chain that grows; the inner `none` is no free cluster. -/
def extend (fs : FatFs) (dev : Device) (cur : Nat) : Option (Option Nat × Device) := do
  let next ← fatGetNextCluster fs dev cur
  if next = endOfChain then
    let next ← fatFindFreeCluster fs dev
    if next = endOfChain then return (none, dev)
    else
      let dev ← fatSetFatEntry fs dev cur next
      let dev ← fatSetFatEntry fs dev next endOfChain
      return (some next, dev)
  else return (some next, dev)

/-- The clusters before the position of a write; where there is none left the loop is left. -/
def writeSkip (fs : FatFs) : Nat → Device → Nat → Option (Nat × Device)
  | 0, dev, cur => some (cur, dev)
  | n + 1, dev, cur => do
      match ← extend fs dev cur with
      | (none, dev) => return (cur, dev)
      | (some next, dev) => writeSkip fs n dev next

/-- The loop of `fat_write`, with what is left to write. -/
def writeLoop (fs : FatFs) : Nat → Device → FatFile → Nat → List UInt8 → Nat → Option (Nat × FatFile × Device)
  | 0, _, _, _, _, _ => none
  | fuel + 1, dev, f, cur, src, written =>
      if src = [] then some (written, f, dev)
      else
        let off := f.pos % (fs.spc * fs.bps)
        let lba := (fatClusterToSector fs cur + off / fs.bps) % 2 ^ 32
        match dev.read lba with
        | none => some (written, f, dev)
        | some sector => do
            let n := min (fs.bps - off % fs.bps) src.length
            access (off % fs.bps) n
            match dev.write lba (splice sector (off % fs.bps) n fun k => src.getD k 0) with
            | none => return (written, f, dev)
            | some dev =>
                let pos := (f.pos + n) % 2 ^ 32
                let f := { f with pos, size := max f.size pos }
                if pos % (fs.spc * fs.bps) = 0 ∧ src.drop n ≠ [] then
                  match ← extend fs dev cur with
                  | (none, dev) => return (written + n, f, dev)
                  | (some next, dev) => writeLoop fs fuel dev f next (src.drop n) (written + n)
                else writeLoop fs fuel dev f cur (src.drop n) (written + n)

/-- The first cluster of a file that has none yet; the inner `none` is no free cluster. -/
def firstCluster (fs : FatFs) (dev : Device) (f : FatFile) : Option (Option (FatFile × Device)) :=
  if f.cluster ≠ 0 then some (some (f, dev))
  else do
    let c ← fatFindFreeCluster fs dev
    if c = endOfChain then return none
    else
      let dev ← fatSetFatEntry fs dev c endOfChain
      return some ({ f with cluster := c }, dev)

/-- `fat_write`. -/
def fatWrite (fuel : Nat) (fs : FatFs) (dev : Device) (f : FatFile) (src : List UInt8) : Option (Nat × FatFile × Device) :=
  if src = [] then some (0, f, dev)
  else do
    match ← firstCluster fs dev f with
    | none => return (0, f, dev)
    | some (f, dev) =>
        let (cur, dev) ← writeSkip fs (f.pos / (fs.spc * fs.bps)) dev f.cluster
        let (written, f, dev) ← writeLoop fs fuel dev f cur src 0
        let dev ← fatSyncDirEntry fs dev f
        return (written, f, dev)

end Blackmount.Fat
