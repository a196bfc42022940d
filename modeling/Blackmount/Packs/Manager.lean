import Blackmount.Lib.Bytes
import Blackmount.Lib.Text
import Blackmount.Lib.Run

/-!
# Packs — the package registry

`manager.c` of the package daemon: a table of `MAX_PACKS` pointers to packages, the installation and the removal of a
package, and the database file the table is saved to and loaded from.  What the other files hold is not followed; the
answers of the file system and of the allocator are inputs of each call, and so is what the stack held before.

`none` stands for a call without a defined outcome: `strcmp` or `%s` at `NULL`, a string that is written and whose length
has the sign bit of an `int` set, a block that is cleared over its end, and `strdup` of a buffer with no NUL in it.
-/

namespace Blackmount.Packs
open Blackmount.Lib Blackmount.Lib.Text

abbrev Str := List UInt8

/-- A C string. -/
structure CString where
  chars : Str
  noNul : 0 ∉ chars
  deriving DecidableEq

def CString.empty : CString := ⟨[], List.not_mem_nil⟩

theorem not_mem_takeWhile (s : Str) : 0 ∉ s.takeWhile (· ≠ 0) := by
  intro h
  simpa using List.mem_takeWhile_imp h

/-- The C string at the start of a buffer. -/
def cString (s : Str) : CString := ⟨s.takeWhile (· ≠ 0), not_mem_takeWhile s⟩

/-- `snprintf` of `"%s/%s"`. -/
def snprintfPath (size : Nat) (dir file : CString) : CString := cString ((dir.chars ++ ascii "/" ++ file.chars).take (size - 1))

/-- `package_t`. -/
structure Package where
  name : Option CString
  location : Option CString := none
  relatedFiles : Option CString := none
  installSpec : Option CString := none
  intVer : UInt32 := 0
  strVer : Option CString := none
  /-- `package_type_t`, as the `int` that is written -/
  type : UInt32 := 0
  deriving DecidableEq

def maxPacks : Nat := 10000
def installedDir : CString := cString (ascii "/etc/packs/installed")

/-- `packages`, and the file at `PACKAGES_DB` as the last save left it. -/
structure Manager where
  packages : List (Option Package)
  db : Option Str
  size : packages.length = maxPacks

/-- `zalloc` of the table. -/
def Manager.empty (db : Option Str) : Manager := ⟨List.replicate maxPacks none, db, List.length_replicate⟩

/-- The registered packages, in the order of their slots. -/
def Manager.all (m : Manager) : List Package := m.packages.filterMap id

/-! ### The table -/

/-- `find_pkg`. -/
def findPkg (name : Option CString) : List (Option Package) → Option (Option Package)
  | [] => some none
  | none :: slots => findPkg name slots
  | some p :: slots => do
      if (← p.name) = (← name) then return some p
      findPkg name slots

/-- `find_free_slot`. -/
def findFreeSlot (slots : List (Option Package)) : Option Nat := slots.findIdx? Option.isNone

/-- `manager_add_package`: `none` when all slots are in use. -/
def managerAddPackage (slots : List (Option Package)) (pkg : Package) : Option (List (Option Package)) :=
  (findFreeSlot slots).map fun i => slots.set i (some pkg)

theorem length_managerAddPackage {slots slots' : List (Option Package)} {pkg : Package}
    (h : managerAddPackage slots pkg = some slots') : slots'.length = slots.length := by
  obtain ⟨i, -, rfl⟩ := Option.map_eq_some_iff.mp h
  exact List.length_set

/-- The loop of `manager_remove_package`, up to `packages[i] = NULL`: `some none` when no slot has the name. -/
def clearPkg (name : Option CString) : List (Option Package) → Option (Option (List (Option Package)))
  | [] => some none
  | none :: slots => do return (← clearPkg name slots).map (none :: ·)
  | some p :: slots => do
      if (← p.name) = (← name) then return some (none :: slots)
      return (← clearPkg name slots).map (some p :: ·)

theorem length_clearPkg {name : Option CString} {slots slots' : List (Option Package)}
    (h : clearPkg name slots = some (some slots')) : slots'.length = slots.length := by
  induction slots generalizing slots' with
  | nil => cases h
  | cons slot slots ih =>
      cases slot with
      | none =>
          obtain ⟨r, hr, h⟩ := Option.bind_eq_some_iff.mp h
          obtain ⟨slots₁, rfl, rfl⟩ := Option.map_eq_some_iff.mp (Option.some.inj h)
          simp [ih hr]
      | some p =>
          obtain ⟨a, -, h⟩ := Option.bind_eq_some_iff.mp h
          obtain ⟨b, -, h⟩ := Option.bind_eq_some_iff.mp h
          split at h
          · cases h
            rfl
          · obtain ⟨r, hr, h⟩ := Option.bind_eq_some_iff.mp h
            obtain ⟨slots₁, rfl, rfl⟩ := Option.map_eq_some_iff.mp (Option.some.inj h)
            simp [ih hr]

/-! ### Saving -/

/-- `(int)strlen(s)`, where it is not negative. -/
def intLen (s : CString) : Option Nat := if s.chars.length % 2 ^ 32 < 2 ^ 31 then some (s.chars.length % 2 ^ 32) else none

/-- The bytes of an `int`. -/
def intBytes (v : Nat) : Str := [byteOf v, byteOf (v / 2 ^ 8), byteOf (v / 2 ^ 16), byteOf (v / 2 ^ 24)]

/-- The two writes of a string; `NULL` is written as the empty string. -/
def writeString (s : Option CString) : Option Str := do
  let s := s.getD CString.empty
  let len ← intLen s
  return intBytes len ++ s.chars.take len

/-- The writes of one round of `manager_save_packages`. -/
def writePackage (p : Package) : Option Str := do
  let name ← writeString p.name
  let rela ← writeString p.relatedFiles
  let loc ← writeString p.location
  let strv ← writeString p.strVer
  return name ++ rela ++ loc ++ intBytes p.intVer.toNat ++ strv ++ intBytes p.type.toNat

/-- What `manager_save_packages` meets: the file there is, and whether it is unlinked and a file opened. -/
structure SaveEnv where
  old : Option Str := none
  unlinked : Bool := true
  opened : Bool := true

/-- `manager_save_packages`.  A file that could not be unlinked is overwritten from its start. -/
def managerSavePackages (m : Manager) (env : SaveEnv) : Option (Manager × Int32) := do
  let left := if env.unlinked then none else env.old
  if env.opened then
    let records ← m.all.mapM writePackage
    let content := records.flatten
    return ({ m with db := some (content ++ (left.getD []).drop content.length) }, 0)
  else
    return ({ m with db := left }, -1)

/-! ### Loading -/

/-- `read` of an `int` that is zero before: the bytes there are, and the rest of the file. -/
def readInt (file : Str) : Nat × Str :=
  ((file.getD 0 0).toNat + 2 ^ 8 * (file.getD 1 0).toNat + 2 ^ 16 * (file.getD 2 0).toNat +
    2 ^ 24 * (file.getD 3 0).toNat, file.drop 4)

/-- What `manager_load_packages` meets: whether the file is opened, and the answers of `zalloc` in their order. -/
structure LoadEnv where
  opened : Bool := true
  zalloc : Nat → Bool := fun _ => true

/-- A length, the allocation and the read of the string.  For `-1`, nothing is asked for, and `zalloc` gives `NULL`; for
any other negative length it is asked for almost the whole of memory, and if `malloc` gives it some block, the zeros are
written behind its end. -/
def readString (file : Str) (allocated : Bool) : Option (Option CString × Str) :=
  let (len, file) := readInt file
  if len < 2 ^ 31 then
    if allocated then some (some (cString (file.take len)), file.drop len) else some (none, file)
  else if len = 2 ^ 32 - 1 ∨ allocated = false then some (none, file)
  else none

/-- The reads after the name of one round; `k` is the number of the next allocation. -/
def readFields (env : LoadEnv) (name : Option CString) (file : Str) (k : Nat) : Option (Package × Str) := do
  let (rela, file) ← readString file (env.zalloc k)
  let (loc, file) ← readString file (env.zalloc (k + 1))
  let (intVer, file) := readInt file
  let (strv, file) ← readString file (env.zalloc (k + 2))
  let (type, file) := readInt file
  return ({ name := name, location := loc, relatedFiles := rela, intVer := UInt32.ofNat intVer, strVer := strv,
            type := UInt32.ofNat type }, file)

/-- `while (1)` of `manager_load_packages`, for so many rounds. -/
def loadLoop (env : LoadEnv) : Nat → List (Option Package) → Str → Nat → Option (List (Option Package))
  | 0, _, _, _ => none
  | rounds + 1, slots, file, k => do
      if !env.zalloc k then return slots
      if file.length < 4 then return slots
      let (name, file) ← readString file (env.zalloc (k + 1))
      if name.isNone then return slots
      let (p, file) ← readFields env name file (k + 2)
      match managerAddPackage slots p with
      | none => return slots
      | some slots => loadLoop env rounds slots file (k + 5)

theorem length_loadLoop {env : LoadEnv} {rounds k : Nat} {slots slots' : List (Option Package)} {file : Str}
    (h : loadLoop env rounds slots file k = some slots') : slots'.length = slots.length := by
  induction rounds generalizing slots file k with
  | zero => cases h
  | succ rounds ih =>
      rw [loadLoop] at h
      split at h
      · cases h; rfl
      split at h
      · cases h; rfl
      obtain ⟨⟨name, file₁⟩, -, h⟩ := Option.bind_eq_some_iff.mp h
      dsimp only at h
      split at h
      · cases h; rfl
      obtain ⟨⟨p, file₂⟩, -, h⟩ := Option.bind_eq_some_iff.mp h
      dsimp only at h
      split at h
      · cases h; rfl
      · next hadd => rw [ih h, length_managerAddPackage hadd]

/-- `manager_load_packages`.  A round takes four bytes at least, or is the last. -/
def managerLoadPackages (m : Manager) (env : LoadEnv) : Option Manager :=
  match m.db with
  | none => some m
  | some file =>
      if env.opened then
        match h : loadLoop env (file.length + 1) m.packages file 0 with
        | none => none
        | some slots => some ⟨slots, m.db, (length_loadLoop h).trans m.size⟩
      else some m

/-! ### Installing and removing -/

/-- What `manager_install_package` meets: whether `src_pakpath` is given, the answers of `ensure_dir`,
`copy_directory_flat` and of each `copy_file`, those of `strdup`, and the stack under `related`. -/
structure InstallEnv where
  srcPakpath : Bool := true
  ensureDir : Bool := true
  copyDirectoryFlat : Bool := true
  copyFile : Nat → Bool := fun _ => true
  dupLocation : Bool := true
  dupSpec : Bool := true
  dupRelated : Bool := true
  stack : Bytes := fun _ => 0
  save : SaveEnv := {}

/-- `strdup`. -/
def strdup (allocated : Bool) (s : CString) : Option CString := if allocated then some s else none

/-- The tokens `strtok` gives until it gives `NULL`. -/
def strtok (sep : UInt8) (s : CString) : List Str := (lines sep s.chars).filter (· ≠ [])

/-- `related[4096]` and `related_len`. -/
structure Related where
  bytes : Bytes
  len : Nat

/-- `';'`, when there is a path before, and the path, when it fits.  A separator alone is not closed by a NUL. -/
def Related.append (r : Related) (dstPath : CString) : Option Related := do
  let r := if 0 < r.len ∧ r.len < 4095 then ⟨Function.update r.bytes r.len 59, r.len + 1⟩ else r
  let dlen ← intLen dstPath
  if r.len + dlen < 4095 then
    return ⟨Function.update (splice r.bytes r.len dlen fun i => dstPath.chars.getD i 0) (r.len + dlen) 0, r.len + dlen⟩
  return r

/-- The string in `related`. -/
def Related.text (r : Related) : Option CString :=
  let s := (List.range 4096).map r.bytes
  if 0 ∈ s then some (cString s) else none

/-- The rounds of `install_system_files`; `k` is the number of the next `copy_file`.  The flag is cleared when one
fails. -/
def installEntries (env : InstallEnv) : List Str → Related → Nat → Option (Related × Bool)
  | [], r, _ => some (r, true)
  | entry :: entries, r, k =>
      if 58 ∈ entry then do
        if !env.copyFile k then return (r, false)
        let r ← r.append (cString ((entry.dropWhile (· ≠ 58)).drop 1))
        installEntries env entries r (k + 1)
      else installEntries env entries r k

/-- `install_system_files`; the flag is cleared when it fails. -/
def installSystemFiles (env : InstallEnv) (pkg : Package) : Option (Package × Bool) := do
  let spec := pkg.installSpec.getD CString.empty
  if spec.chars = [] then
    if pkg.relatedFiles.isNone then
      return ({ pkg with relatedFiles := strdup env.dupRelated CString.empty }, true)
    return (pkg, true)
  if !env.dupSpec then return (pkg, false)
  let (related, installed) ← installEntries env (strtok 59 spec) ⟨Function.update env.stack 0 0, 0⟩ 0
  if !installed then return (pkg, false)
  return ({ pkg with relatedFiles := strdup env.dupRelated (← related.text) }, true)

/-- `manager_install_package`. -/
def managerInstallPackage (m : Manager) (pkg : Package) (env : InstallEnv) : Option (Manager × Int32) := do
  if !env.srcPakpath then return (m, -1)
  if (← findPkg pkg.name m.packages).isSome then return (m, -1)
  let installedPath := snprintfPath 512 installedDir (← pkg.name)
  if !env.ensureDir then return (m, -1)
  if !env.copyDirectoryFlat then return (m, -1)
  let pkg := { pkg with location := strdup env.dupLocation installedPath }
  let (pkg, installed) ← installSystemFiles env pkg
  if !installed then return (m, -1)
  match h : managerAddPackage m.packages pkg with
  | none => return (m, -1)
  | some slots =>
      let (m, _) ← managerSavePackages ⟨slots, m.db, (length_managerAddPackage h).trans m.size⟩ env.save
      return (m, 0)

/-- `manager_remove_package`. -/
def managerRemovePackage (m : Manager) (name : Option CString) (env : SaveEnv) : Option (Manager × Int32) :=
  match h : clearPkg name m.packages with
  | none => none
  | some none => some (m, -1)
  | some (some slots) => do
      let (m, _) ← managerSavePackages ⟨slots, m.db, (length_clearPkg h).trans m.size⟩ env
      return (m, 0)

/-- The requests that change the registry. -/
inductive PackOp where
  | install (pkg : Package) (env : InstallEnv)
  | remove (name : Option CString) (env : SaveEnv)

def packStep (m : Manager) : PackOp → Option Manager
  | .install pkg env => (managerInstallPackage m pkg env).map Prod.fst
  | .remove name env => (managerRemovePackage m name env).map Prod.fst

end Blackmount.Packs
