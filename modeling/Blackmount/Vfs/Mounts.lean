import Blackmount.Vfs.System
import Blackmount.Vfs.Paths
import Blackmount.Ext2.Mount

/-!
# Vfs — mounting and unmounting under open descriptors

`VFS_Unmount_Path` gives the file system back whoever still points to it.  The mounts are counted, so
that a file system at an address that was in use before is told from the one that was there.

* `Attached`: a slot's file system is mounted, and what the slot points to was opened on this mount.
* `attached_step`: a call leaves all slots in use attached exactly when it is `Safe`.
* `no_dangling_iff`: in a run no descriptor dangles exactly as long as every call is `Safe`.
-/

namespace Blackmount.Vfs
open Blackmount.Lib Blackmount.Ext2 Blackmount.User Blackmount.Proc Blackmount.Net

/-! ### `VFS_Mount` and `VFS_Unmount_Path` -/

/-- `ext2_mount`; `addr` is the allocator's answer for the file system. -/
def mountAt (dev : Ext2.Device) (m : MountFaults) (faults : Nat → Bool) (addr : Option Nat) :
    BaseM (Option Nat) := fun b =>
  match addr with
  | none => some (none, b)
  | some a =>
      match b.fss a with
      | some _ => some (none, b)
      | none =>
          match ext2Mount dev m faults with
          | none => none
          | some none => some (none, b)
          | some (some fs) => some (some a, { b with fss := Function.update b.fss a (some fs) })

/-- `ext2_unmount`.  What it writes to the device is not followed. -/
def unmountAt (fs : Option Nat) : BaseM Unit := fun b =>
  match fs with
  | none => some ((), b)
  | some a =>
      match b.fss a with
      | none => none
      | some _ => some ((), { b with fss := Function.update b.fss a none })

/-- `sizeof(mountpoint)`. -/
def mountpointSize : Nat := 256

/-- The first entry that is not in use. -/
def firstInactive (b : Base) : Option (Fin maxMounts) :=
  (List.finRange maxMounts).find? fun i => !(b.mountTable i).active

/-- The first entry in use of this name. -/
def mountedAs (b : Base) (target : Name) : Option (Fin maxMounts) :=
  (List.finRange maxMounts).find? fun i => (b.mountTable i).active && (b.mountTable i).mountpoint == target

def setMount (i : Fin maxMounts) (m : Mount) : BaseM Unit :=
  modify fun b => { b with mountTable := Function.update b.mountTable i m }

/-- `VFS_Mount`; `dev` is what `block_get` finds. -/
def vfsMount (dev : Option Ext2.Device) (target : Name) (m : MountFaults) (faults : Nat → Bool)
    (addr : Option Nat) : BaseM Int32 := do
  match dev with
  | none => return intError .noDev
  | some dev =>
      match ← mountAt dev m faults addr with
      | none => return intError .io
      | some a =>
          match firstInactive (← get) with
          | some i =>
              setMount i ⟨target.take (mountpointSize - 1), some a, true⟩
              return 0
          | none =>
              unmountAt (some a)
              return intError .nFile

def vfsUnmountPath (target : Name) : BaseM Int32 := do
  let b ← get
  match mountedAs b target with
  | some i =>
      unmountAt (b.mountTable i).fs
      setMount i { b.mountTable i with active := false }
      return 0
  | none => return intError .noEnt

/-! ### The machine -/

/-- The VFS, and the step in which the file system at an address was mounted, and in which the one was
that an object was opened on. -/
structure Counted where
  vfs : State
  clock : Nat
  mountedIn : Nat → Nat
  openedOn : Nat → Nat

def Obj.fs : Obj → Nat
  | .file f => f.fs
  | .dir d => d.fs

namespace Counted

/-- A step has led to `s'`. -/
def mountedAfter (v : Counted) (s' : State) (a : Nat) : Nat :=
  if (v.vfs.base.fss a).isNone && (s'.base.fss a).isSome then v.clock else v.mountedIn a

def after (v : Counted) (s' : State) : Counted where
  vfs := s'
  clock := v.clock + 1
  mountedIn := v.mountedAfter s'
  openedOn p :=
    match v.vfs.base.heap p, s'.base.heap p with
    | none, some o => v.mountedAfter s' o.fs
    | _, _ => v.openedOn p

end Counted

inductive MountOp where
  | mount (dev : Option Ext2.Device) (target : Name) (m : MountFaults) (faults : Nat → Bool) (addr : Option Nat)
  | unmount (target : Name)
  | open (path : UInt64) (privileged byKernel : Bool) (addr : Option Nat)
  | close (fd : Int32) (privileged : Bool)
  | read (fd : Int32) (count : Nat) (frame : Registers)
  | write (fd : Int32) (data : List UInt8) (privileged : Bool) (frame : Registers)
  | dup (fd : UInt64) (addr : Option Nat)
  /-- Another process runs. -/
  | runAs (c : Slot)
  /-- Processes have written their memory. -/
  | memory (strings : Option Nat → UInt64 → Name)
  /-- The device under the file system at `a` was written through another mount. -/
  | device (a : Nat) (disk : Nat → Bytes)

def MountOp.perform : MountOp → VfsM Unit
  | .mount dev target m faults addr => do let _ ← onBase (vfsMount dev target m faults addr)
  | .unmount target => do let _ ← onBase (vfsUnmountPath target)
  | .open path privileged byKernel addr => do let _ ← vfsOpen path privileged byKernel addr
  | .close fd privileged => do let _ ← vfsClose fd privileged
  | .read fd count frame => do let _ ← vfsRead fd count frame
  | .write fd data privileged frame => do let _ ← vfsWrite fd data privileged frame
  | .dup fd addr => do let _ ← sysDup fd addr
  | .runAs c => modify fun s => s.runAs c
  | .memory strings => modify fun s => { s with base := { s.base with strings := strings } }
  | .device a disk => modify fun s => { s with base := { s.base with
      fss := fun k => if k = a then (s.base.fss k).map fun fs => { fs with disk := disk } else s.base.fss k } }

def mountStep (v : Counted) (op : MountOp) : Option Counted := (op.perform v.vfs).map fun r => v.after r.2

/-- Nothing is mounted but the root, and nothing is open. -/
structure Booted (v : Counted) : Prop where
  root : ∀ a, v.vfs.base.rootfs = some a → (v.vfs.base.fss a).isSome
  mounts : ∀ i, (v.vfs.base.mountTable i).active = false
  empty : ∀ i, (v.vfs.openFiles i).present = false
  clock : ∀ a, v.mountedIn a < v.clock

/-! ### Descriptors that dangle -/

/-- The root, or what an active entry of the table holds. -/
def Base.Mounted (b : Base) (a : Nat) : Prop :=
  b.rootfs = some a ∨ ∃ i, (b.mountTable i).active = true ∧ (b.mountTable i).fs = some a

/-- The slot is of the file system at `a`, which is mounted, and what it points to was opened on this mount of it. -/
structure Attached (v : Counted) (x : VfsFile) (a : Nat) : Prop where
  fs : x.fs = some a
  mounted : v.vfs.base.Mounted a
  file : ∀ p, x.file = some p → ∃ f, v.vfs.base.heap p = some (.file f) ∧ f.fs = a ∧ v.openedOn p = v.mountedIn a
  dir : ∀ p, x.dirIter = some p → ∃ d, v.vfs.base.heap p = some (.dir d) ∧ d.fs = a ∧ v.openedOn p = v.mountedIn a

def NoDangling (v : Counted) : Prop :=
  ∀ i, (v.vfs.openFiles i).present = true → ∃ a, Attached v (v.vfs.openFiles i) a

/-- The root file system opens the path of the slot, and the handle can be allocated. -/
def Reopens (b : Base) (x : VfsFile) (addr : Option Nat) : Prop :=
  ∃ p r σ f σ' a, x.path = some p ∧ b.rootfs = some r ∧ b.fss r = some σ ∧
    ext2Open (b.str p) σ = some (some f, σ') ∧ addr = some a ∧ b.heap a = none

/-- What a call needs of the table so that no descriptor dangles after it. -/
def MountOp.Safe (s : State) : MountOp → Prop
  /- Nothing is open on the file system. -/
  | .unmount target => ∀ i a, mountedAs s.base target = some i → (s.base.mountTable i).fs = some a →
      ∀ j, (s.openFiles j).present = true → (s.openFiles j).fs ≠ some a
  /- No other slot has the iterator that is given back. -/
  | .close fd privileged => ∀ i p, slotOf fd = some i → closeRefusal (s.openFiles i) privileged s.base.pid = none →
      (s.openFiles i).isDir = true → (s.openFiles i).dirIter = some p →
      ∀ j, j ≠ i → (s.openFiles j).present = true → (s.openFiles j).dirIter ≠ some p
  /- A slot of another file system is not copied with a file of the root's. -/
  | .dup fd addr => ∀ j, slot64 fd = some j → (s.openFiles j).present = true → firstFree s ≠ none →
      (s.openFiles j).fs = s.base.rootfs ∨ ¬ Reopens s.base (s.openFiles j) addr
  | _ => True

/-! ### Where the file systems are -/

/-- The same addresses hold file systems. -/
def SameFss (b b' : Base) : Prop := ∀ a, (b'.fss a).isSome = (b.fss a).isSome

variable {b b' : Base} {a p : Nat}

namespace SameFss

theorem refl (b : Base) : SameFss b b := fun _ => rfl

theorem trans {b₁ b₂ b₃ : Base} (h₁ : SameFss b₁ b₂) (h₂ : SameFss b₂ b₃) : SameFss b₁ b₃ :=
  fun a => (h₂ a).trans (h₁ a)

theorem of_eq (h : b'.fss = b.fss) : SameFss b b' := fun a => by rw [h]

theorem of_update {σ σ' : Fs} (hσ : b.fss a = some σ)
    (h : b'.fss = Function.update b.fss a (some σ')) : SameFss b b' := by
  intro k
  rw [h]
  by_cases e : k = a
  · rw [e, Function.update_self, hσ]
    rfl
  · rw [Function.update_of_ne e]

end SameFss

abbrev FssM {α : Type} (m : BaseM α) : Prop := Keeps SameFss m

section FssRules

variable {α β : Type}

theorem fss_pure (a : α) : FssM (pure a) := .pure SameFss.refl a

theorem fss_get : FssM (get : BaseM Base) := .get SameFss.refl

theorem FssM.bind {m : BaseM α} {f : α → BaseM β} (hm : FssM m) (hf : ∀ a, FssM (f a)) : FssM (m >>= f) :=
  Keeps.bind SameFss.trans hm hf

theorem fss_runFs (a : Nat) (m : Ext2M α) : FssM (runFs a m) := by
  intro b r b' h
  obtain ⟨σ, σ', hσ, -, rfl⟩ := runFs_some h
  exact .of_update hσ rfl

theorem fss_onPath (fs : Option Nat) (path : Name) (null : α) (m : Ext2M α) : FssM (onPath fs path null m) := by
  cases fs with
  | none => exact fss_pure _
  | some a => exact FssM.bind (.modify fun _ => .of_eq rfl) fun _ => fss_runFs a m

end FssRules

theorem fss_vfsAccessOk (fs : Option Nat) (path : Name) (mask : Nat) (privileged : Bool) :
    FssM (vfsAccessOk fs path mask privileged) := by
  refine .ite (fss_pure _) (fss_get.bind fun b => .ite (fss_pure _) ?_)
  exact (fss_onPath _ _ _ _).bind fun _ => fss_pure _

theorem fss_kmalloc (addr : Option Nat) (o : Obj) : FssM (kmalloc addr o) := by
  intro b r b' h
  rcases kmalloc_some h with ⟨-, rfl⟩ | ⟨a, -, -, rfl⟩
  · exact .refl _
  · exact .of_eq rfl

theorem fss_openAt (fs : Option Nat) (path : Name) (g : Grant) (addr : Option Nat) : FssM (openAt fs path g addr) := by
  refine (fss_onPath fs path _ _).bind fun f => ?_
  cases fs <;> cases f <;> first | exact fss_pure _ | exact fss_kmalloc _ _

theorem fss_opendirAt (fs : Option Nat) (path : Name) (addr : Option Nat) : FssM (opendirAt fs path addr) := by
  refine (fss_onPath fs path _ _).bind fun i => ?_
  cases fs <;> cases i <;> first | exact fss_pure _ | exact fss_kmalloc _ _

theorem fss_openObject (path : Name) (privileged byKernel : Bool) (addr : Option Nat) :
    FssM (openObject path privileged byKernel addr) := by
  refine fss_get.bind fun b => (fss_vfsAccessOk _ _ _ _).bind fun ok => .ite (fss_pure _) ?_
  refine FssM.bind ((fss_onPath _ _ _ _).bind fun r => ?_) fun isDir => .ite ?_ ?_
  · cases r <;> exact fss_pure _
  · refine (fss_opendirAt _ _ _).bind fun o => ?_
    cases o <;> exact fss_pure _
  · refine (fss_openAt _ _ _ _).bind fun o => ?_
    cases o <;> exact fss_pure _

theorem fss_closeAt (a : Nat) : FssM (closeAt a) := by
  intro b u b' h
  obtain ⟨f, σ, σ', -, hσ, -, he⟩ := closeAt_some h
  exact .of_update hσ he

theorem fss_closedirAt (a : Nat) : FssM (closedirAt a) := by
  intro b u b' h
  obtain ⟨d, σ, σ', -, hσ, -, he⟩ := closedirAt_some h
  exact .of_update hσ he

theorem fss_discard (o : Opened) : FssM (discard o) := by
  cases o with
  | dir iter => exact fss_closedirAt iter
  | file f => exact fss_closeAt f

theorem fss_release {x : VfsFile} (hs : x.isSocket = false) : FssM (release x) := by
  rcases release_cases hs with ⟨a, -, -, e⟩ | ⟨a, -, -, e⟩ | ⟨-, -, e⟩
  · rw [e]; exact fss_closedirAt a
  · rw [e]; exact fss_closeAt a
  · rw [e]; exact fss_pure ()

theorem fss_copySlot (x : VfsFile) (addr : Option Nat) : FssM (copySlot x addr) := by
  refine fss_get.bind fun b => ?_
  cases x.path with
  | none => exact fss_pure _
  | some p => exact FssM.bind (fss_openAt _ _ _ _) fun _ => fss_pure _

variable {r fd : Int32} {addr : Option Nat}

theorem fss_vfsOpen {path : UInt64} {privileged byKernel : Bool} {s s' : State}
    (h : vfsOpen path privileged byKernel addr s = some (r, s')) : SameFss s.base s'.base := by
  by_cases hpath : opensByPath privileged (s.base.str path)
  · rw [vfsOpen_eq hpath] at h
    obtain ⟨⟨x, b⟩, hopen, h⟩ := Option.bind_eq_some_iff.mp h
    have hfss := fss_openObject _ _ _ _ _ _ _ hopen
    cases x with
    | error e =>
        cases h
        exact hfss
    | ok o =>
        simp only at h
        cases hfree : firstFree s with
        | none =>
            rw [hfree] at h
            obtain ⟨⟨u, b'⟩, hd, he⟩ := Option.map_eq_some_iff.mp h
            cases he
            exact hfss.trans (fss_discard _ _ _ _ hd)
        | some i =>
            rw [hfree] at h
            cases h
            exact hfss
  · rw [vfsOpen_special hpath] at h
    cases h
    exact .refl _

theorem fss_callDevice (d : Device) (call : DeviceCall) : FssM (callDevice d call) :=
  fun _ _ _ h => .of_eq (callDevice_some h).fss

theorem fss_deviceFor (x : VfsFile) (has : Device → Bool) : FssM (deviceFor x has) := by
  intro b r b' h
  obtain ⟨rfl, -⟩ := deviceFor_some h
  exact .refl _

theorem fss_onNet {α : Type} (f : NetKernel → NetKernel × α) : FssM (onNet f) := by
  intro b r b' h
  cases h
  exact .of_eq rfl

theorem fss_readFile (a count : Nat) : FssM (readFile a count) := by
  intro b r b' h
  obtain ⟨f, f', -, σ, σ', res, hσ, -, he⟩ := readFile_some h
  exact .of_update hσ he

theorem fss_writeFile (a : Nat) (data : List UInt8) : FssM (writeFile a data) := by
  intro b r b' h
  obtain ⟨f, f', -, σ, σ', res, hσ, -, he⟩ := writeFile_some h
  exact .of_update hσ he

theorem fss_relNow (x : VfsFile) : FssM (relNow x) := by
  intro b r b' h
  simp only [relNow] at h
  split at h
  · cases h
  · cases h
    exact .refl _

theorem fss_readSlot (x : VfsFile) (count : Nat) (frame : Registers) : FssM (readSlot x count frame) := by
  refine fss_get.bind fun b => .ite (fss_pure _) (.ite (.ite (fss_pure _) (fss_onNet _)) (.ite (fss_pure _) ?_))
  cases x.file with
  | none => exact fss_pure _
  | some a =>
      refine FssM.bind (fss_deviceFor _ _) fun d => ?_
      cases d with
      | some d => exact FssM.bind (fss_callDevice _ _) fun _ => fss_pure _
      | none => exact FssM.bind (fss_readFile _ _) fun _ => fss_pure _

theorem fss_writeSlot (x : VfsFile) (data : List UInt8) (privileged : Bool) (frame : Registers) :
    FssM (writeSlot x data privileged frame) := by
  refine fss_get.bind fun b => .ite (fss_pure _) (.ite (.ite (fss_pure _) (fss_onNet _)) (.ite (fss_pure _) ?_))
  refine (fss_relNow x).bind fun rel => ?_
  refine FssM.bind (.ite (fss_pure _) (fss_vfsAccessOk _ _ _ _)) fun ok => .ite (fss_pure _) ?_
  cases x.file with
  | none => exact fss_pure _
  | some a =>
      refine FssM.bind (fss_deviceFor _ _) fun d => ?_
      cases d with
      | some d => exact FssM.bind (fss_callDevice _ _) fun _ => fss_pure _
      | none => exact FssM.bind (fss_writeFile _ _) fun _ => fss_pure _

/-! ### What a step keeps -/

section After

variable {v : Counted} {s' : State} {x : VfsFile} {a p : Nat}

theorem after_mountedIn (h : (v.vfs.base.fss a).isSome) : (v.after s').mountedIn a = v.mountedIn a := by
  have hn : (v.vfs.base.fss a).isNone = false := by rw [Option.isNone_eq_false_iff]; exact h
  simp only [Counted.after, Counted.mountedAfter, hn, Bool.false_and, Bool.false_eq_true, if_false]

theorem after_openedOn {o : Obj} (h : v.vfs.base.heap p = some o) : (v.after s').openedOn p = v.openedOn p := by
  simp only [Counted.after, h]

/-- An object that a step allocates is of the mount of its file system. -/
theorem after_openedOn_new {o : Obj} (h : v.vfs.base.heap p = none) (h' : s'.base.heap p = some o) :
    (v.after s').openedOn p = (v.after s').mountedIn o.fs := by
  simp only [Counted.after, h, h']

/-- A slot stays attached when its file system stays mounted and its objects stay. -/
theorem Attached.carry (h : Attached v x a) (hlive : (v.vfs.base.fss a).isSome) (hm : s'.base.Mounted a)
    (hkeep : ∀ p, x.file = some p ∨ x.dirIter = some p → SameKind (v.vfs.base.heap p) (s'.base.heap p)) :
    Attached (v.after s') x a where
  fs := h.fs
  mounted := hm
  file p hp := by
    obtain ⟨f, hf, hfs, hop⟩ := h.file p hp
    have hk := hkeep p (.inl hp)
    rw [hf] at hk
    rw [after_mountedIn hlive, after_openedOn hf]
    cases ho : s'.base.heap p with
    | none => rw [ho] at hk; cases hk
    | some o =>
        rw [ho] at hk
        cases o with
        | file f' =>
            have e : f' = { f with file := f'.file } := hk
            exact ⟨f', ho, by rw [e]; exact hfs, hop⟩
        | dir d => cases hk
  dir p hp := by
    obtain ⟨d, hd, hfs, hop⟩ := h.dir p hp
    have hk := hkeep p (.inr hp)
    rw [hd] at hk
    rw [after_mountedIn hlive, after_openedOn hd]
    cases ho : s'.base.heap p with
    | none => rw [ho] at hk; cases hk
    | some o =>
        rw [ho] at hk
        cases o with
        | file f => cases hk
        | dir d' => exact ⟨d', ho, (show d'.fs = d.fs from hk).trans hfs, hop⟩

end After

/-- What the table of mounts and the table of open files look like as long as nothing dangles. -/
structure Orderly (v : Counted) : Prop where
  plain : Plain v.vfs
  root : ∀ a, v.vfs.base.rootfs = some a → (v.vfs.base.fss a).isSome
  mounts : ∀ i, (v.vfs.base.mountTable i).active = true → ∃ a, (v.vfs.base.mountTable i).fs = some a ∧
    (v.vfs.base.fss a).isSome ∧ v.vfs.base.rootfs ≠ some a
  apart : ∀ i j, (v.vfs.base.mountTable i).active = true → (v.vfs.base.mountTable j).active = true →
    (v.vfs.base.mountTable i).fs = (v.vfs.base.mountTable j).fs → i = j
  unshared : ∀ i j p, (v.vfs.openFiles i).present = true → (v.vfs.openFiles j).present = true →
    (v.vfs.openFiles i).file = some p → (v.vfs.openFiles j).file = some p → i = j
  attached : NoDangling v

theorem Booted.orderly {v : Counted} (h : Booted v) : Orderly v where
  plain i hp := by rw [h.empty] at hp; cases hp
  root := h.root
  mounts i hi := by rw [h.mounts] at hi; cases hi
  apart i j hi := by rw [h.mounts] at hi; cases hi
  unshared i j p hi := by rw [h.empty] at hi; cases hi
  attached i hi := by rw [h.empty] at hi; cases hi

namespace Orderly

variable {v : Counted} {s' : State}

theorem live (h : Orderly v) (hm : v.vfs.base.Mounted a) : (v.vfs.base.fss a).isSome := by
  rcases hm with hr | ⟨i, hi, he⟩
  · exact h.root a hr
  · obtain ⟨a', he', hlive, -⟩ := h.mounts i hi
    rw [he] at he'
    cases he'
    exact hlive

/-- Every pointer of a slot in use is to something. -/
theorem there (h : Orderly v) {i : Fd} (hi : (v.vfs.openFiles i).present = true)
    (hp : (v.vfs.openFiles i).file = some p ∨ (v.vfs.openFiles i).dirIter = some p) : v.vfs.base.heap p ≠ none := by
  obtain ⟨a, ha⟩ := h.attached i hi
  rcases hp with hp | hp
  · obtain ⟨f, hf, -⟩ := ha.file p hp
    rw [hf]
    simp
  · obtain ⟨d, hd, -⟩ := ha.dir p hp
    rw [hd]
    simp

/-- Mounts came or went, and no file system under an open slot. -/
theorem remount (h : Orderly v) (ho : s'.openFiles = v.vfs.openFiles) (hk : ∀ p, SameKind (v.vfs.base.heap p) (s'.base.heap p))
    (hroot : ∀ a, s'.base.rootfs = some a → (s'.base.fss a).isSome)
    (hmounts : ∀ i, (s'.base.mountTable i).active = true → ∃ a, (s'.base.mountTable i).fs = some a ∧
      (s'.base.fss a).isSome ∧ s'.base.rootfs ≠ some a)
    (hapart : ∀ i j, (s'.base.mountTable i).active = true → (s'.base.mountTable j).active = true →
      (s'.base.mountTable i).fs = (s'.base.mountTable j).fs → i = j)
    (hmounted : ∀ j a, (v.vfs.openFiles j).present = true → (v.vfs.openFiles j).fs = some a →
      v.vfs.base.Mounted a → s'.base.Mounted a) : Orderly (v.after s') where
  plain := by
    show Plain s'
    rw [Plain, ho]
    exact h.plain
  root := hroot
  mounts := hmounts
  apart := hapart
  unshared i j p := by
    show (s'.openFiles i).present = true → (s'.openFiles j).present = true →
      (s'.openFiles i).file = some p → (s'.openFiles j).file = some p → i = j
    rw [ho]
    exact h.unshared i j p
  attached j := by
    show (s'.openFiles j).present = true → ∃ a, Attached (v.after s') (s'.openFiles j) a
    rw [ho]
    intro hj
    obtain ⟨a, ha⟩ := h.attached j hj
    exact ⟨a, ha.carry (h.live ha.mounted) (hmounted j a hj ha.fs ha.mounted) fun p _ => hk p⟩

/-- No slot, no mount and no object came or went. -/
theorem calm (h : Orderly v) (ho : s'.openFiles = v.vfs.openFiles) (hr : s'.base.rootfs = v.vfs.base.rootfs)
    (hm : s'.base.mountTable = v.vfs.base.mountTable) (hf : SameFss v.vfs.base s'.base)
    (hk : ∀ p, SameKind (v.vfs.base.heap p) (s'.base.heap p)) : Orderly (v.after s') := by
  refine h.remount ho hk (fun a => ?_) (fun i => ?_) (fun i j => ?_) fun _ a _ _ ha => ?_
  · rw [hr, hf]
    exact h.root a
  · rw [hm, hr]
    simp only [hf _]
    exact h.mounts i
  · rw [hm]
    exact h.apart i j
  · rw [Base.Mounted, hr, hm]
    exact ha

/-- A slot gets new contents, and what the others point to stays. -/
theorem setSlot (h : Orderly v) {i : Fd} {x : VfsFile} (ho : s'.openFiles = Function.update v.vfs.openFiles i x)
    (hr : s'.base.rootfs = v.vfs.base.rootfs) (hm : s'.base.mountTable = v.vfs.base.mountTable)
    (hf : SameFss v.vfs.base s'.base)
    (hk : ∀ j p, j ≠ i → (v.vfs.openFiles j).present = true →
      (v.vfs.openFiles j).file = some p ∨ (v.vfs.openFiles j).dirIter = some p →
      SameKind (v.vfs.base.heap p) (s'.base.heap p))
    (hx : x.present = true → x.isSocket = false ∧ (∃ a, Attached (v.after s') x a) ∧
      ∀ p, x.file = some p → ∀ j, j ≠ i → (v.vfs.openFiles j).present = true → (v.vfs.openFiles j).file ≠ some p) :
    Orderly (v.after s') := by
  have hself : s'.openFiles i = x := by rw [ho, Function.update_self]
  have hother : ∀ j, j ≠ i → s'.openFiles j = v.vfs.openFiles j := fun j hj => by rw [ho, Function.update_of_ne hj]
  have hmounted : ∀ a, v.vfs.base.Mounted a → s'.base.Mounted a := by
    intro a ha
    rw [Base.Mounted, hr, hm]
    exact ha
  refine ⟨h.plain.set ho fun hp => (hx hp).1, ?_, ?_, ?_, ?_, ?_⟩
  · intro a
    show s'.base.rootfs = some a → (s'.base.fss a).isSome
    rw [hr, hf]
    exact h.root a
  · intro k
    show (s'.base.mountTable k).active = true → ∃ a, (s'.base.mountTable k).fs = some a ∧ (s'.base.fss a).isSome ∧
      s'.base.rootfs ≠ some a
    rw [hm, hr]
    simp only [hf _]
    exact h.mounts k
  · intro k l
    show (s'.base.mountTable k).active = true → (s'.base.mountTable l).active = true →
      (s'.base.mountTable k).fs = (s'.base.mountTable l).fs → k = l
    rw [hm]
    exact h.apart k l
  · intro k l p
    show (s'.openFiles k).present = true → (s'.openFiles l).present = true →
      (s'.openFiles k).file = some p → (s'.openFiles l).file = some p → k = l
    intro hk hl hfk hfl
    by_cases ek : k = i
    · by_cases el : l = i
      · rw [ek, el]
      · rw [ek, hself] at hk hfk
        rw [hother l el] at hl hfl
        exact absurd hfl ((hx hk).2.2 p hfk l el hl)
    · by_cases el : l = i
      · rw [el, hself] at hl hfl
        rw [hother k ek] at hk hfk
        exact absurd hfk ((hx hl).2.2 p hfl k ek hk)
      · rw [hother k ek] at hk hfk
        rw [hother l el] at hl hfl
        exact h.unshared k l p hk hl hfk hfl
  · intro j
    show (s'.openFiles j).present = true → ∃ a, Attached (v.after s') (s'.openFiles j) a
    intro hj
    by_cases e : j = i
    · rw [e, hself] at hj ⊢
      exact (hx hj).2.1
    · rw [hother j e] at hj ⊢
      obtain ⟨a, ha⟩ := h.attached j hj
      exact ⟨a, ha.carry (h.live ha.mounted) (hmounted a ha.mounted) fun p hp => hk j p e hj hp⟩

end Orderly

/-! ### Opening, closing and copying -/

/-- `resolve_fs` only returns what is mounted. -/
theorem resolveFs_mounted {path : Name} (h : (resolveFs b path).1 = some a) : b.Mounted a := by
  rcases (resolveFs_eq_iff b path _ _).mp (Prod.mk.eta (p := resolveFs b path)).symm with
    ⟨-, hr, -⟩ | ⟨m, hm, hfs, -⟩
  · exact .inl (hr.trans h)
  · obtain ⟨i, -, hi⟩ := List.mem_map.mp (List.mem_of_find?_eq_some hm.first)
    have hact := List.find?_some hm.first
    simp only [Bool.and_eq_true] at hact
    exact .inr ⟨i, by rw [hi]; exact hact.1, by rw [hi]; exact hfs.trans h⟩

section Slots

variable {v : Counted} {s' : State}

/-- A new object is not one that a slot points to. -/
theorem Adds.kind {o : Obj} (h : Adds a o b b') (hp : b.heap p ≠ none) :
    SameKind (b.heap p) (b'.heap p) := by
  have hne : p ≠ a := by
    rintro rfl
    exact hp h.fresh
  rw [h.heap, Function.update_of_ne hne]
  exact .refl _

theorem orderly_vfsOpen (h : Orderly v) {path : UInt64} {privileged byKernel : Bool}
    (hopen : vfsOpen path privileged byKernel addr v.vfs = some (r, s')) : Orderly (v.after s') := by
  have hfss := fss_vfsOpen hopen
  obtain ⟨hout, -, ⟨ho, hh⟩ | ⟨i, o, hfill⟩⟩ := vfsOpen_cases hopen
  · exact h.calm ho hout.rootfs hout.mountTable hfss fun p => by rw [hh]; exact .refl _
  · have hobt := hfill.obtains
    have htable := hfill.table
    cases hobt with
    | @dir owner a d may adds fs opened =>
        refine h.setSlot htable hout.rootfs hout.mountTable hfss (fun j p _ hj hp => adds.kind (h.there hj hp))
          fun _ => ⟨fill_isSocket _, ⟨d.fs, ?_⟩, fun p hp => by cases hp⟩
        have hnew : s'.base.heap a = some (.dir d) := by rw [adds.heap, Function.update_self]
        refine ⟨fs, ?_, fun p hp => (by cases hp), fun p hp => ?_⟩
        · show s'.base.Mounted d.fs
          rw [Base.Mounted, hout.rootfs, hout.mountTable]
          exact resolveFs_mounted fs
        · cases hp
          exact ⟨d, hnew, rfl, after_openedOn_new adds.fresh hnew⟩
    | @file owner a f may adds opened =>
        have hnew : s'.base.heap a = some (.file f) := by rw [adds.heap, Function.update_self]
        refine h.setSlot htable hout.rootfs hout.mountTable hfss (fun j p _ hj hp => adds.kind (h.there hj hp))
          fun _ => ⟨fill_isSocket _, ⟨f.fs, opened.fs, ?_, fun p hp => ?_, fun p hp => by cases hp⟩, fun p hp j _ hj hfj => ?_⟩
        · show s'.base.Mounted f.fs
          rw [Base.Mounted, hout.rootfs, hout.mountTable]
          exact resolveFs_mounted opened.fs
        · cases hp
          exact ⟨f, hnew, rfl, after_openedOn_new adds.fresh hnew⟩
        · cases hp
          exact h.there hj (.inl hfj) adds.fresh

/-- What `VFS_Close` gives back is the slot's own file, or its iterator. -/
theorem release_object {x : VfsFile} {u : Unit} (hs : x.isSocket = false)
    (h : release x b = some (u, b')) :
    (∃ p d, x.isDir = true ∧ x.dirIter = some p ∧ Frees p (.dir d) b b') ∨
      (∃ p f, (x.isDir = false ∨ x.dirIter = none) ∧ x.file = some p ∧ Frees p (.file f) b b') ∨
      ((x.isDir = false ∨ x.dirIter = none) ∧ b'.heap = b.heap) := by
  rcases release_cases hs with ⟨p, hd, hi, e⟩ | ⟨p, hn, hf, e⟩ | ⟨hn, -, e⟩
  · rw [e] at h
    obtain ⟨d, σ, σ', hfrees, -⟩ := closedirAt_some h
    exact .inl ⟨p, d, hd, hi, hfrees⟩
  · rw [e] at h
    obtain ⟨f, σ, σ', hfrees, -⟩ := closeAt_some h
    exact .inr (.inl ⟨p, f, hn, hf, hfrees⟩)
  · rw [e] at h
    cases h
    exact .inr (.inr ⟨hn, rfl⟩)

theorem Frees.kind {o : Obj} (h : Frees a o b b') (hne : p ≠ a) :
    SameKind (b.heap p) (b'.heap p) := by
  rw [h.heap, Function.update_of_ne hne]
  exact .refl _

/-- A slot that `VFS_Close` does not refuse is released. -/
theorem vfsClose_released {s : State} {privileged : Bool} {i : Fd}
    (h : vfsClose fd privileged s = some (r, s')) (hi : slotOf fd = some i)
    (href : closeRefusal (s.openFiles i) privileged s.base.pid = none) :
    release (s.openFiles i) s.base = some ((), s'.base) ∧
      s'.openFiles = Function.update s.openFiles i (s.openFiles i).closed := by
  rcases vfsClose_some h with ⟨hno, -⟩ | ⟨k, x, hk, hcl, ho⟩
  · rw [hi] at hno
    cases hno
  · rw [hi] at hk
    cases hk
    rw [closeSlot_eq, href] at hcl
    obtain ⟨⟨u, b⟩, hr, he⟩ := Option.map_eq_some_iff.mp hcl
    simp only [Prod.mk.injEq] at he
    obtain ⟨⟨-, rfl⟩, rfl⟩ := he
    exact ⟨hr, ho⟩

/-- `VFS_Close` leaves nothing dangling exactly when nobody else has the iterator that it gives back. -/
theorem orderly_vfsClose (h : Orderly v) {privileged : Bool}
    (hclose : vfsClose fd privileged v.vfs = some (r, s')) :
    (MountOp.Safe v.vfs (.close fd privileged) → Orderly (v.after s')) ∧
      (NoDangling (v.after s') → MountOp.Safe v.vfs (.close fd privileged)) := by
  by_cases hrel : ∃ i, slotOf fd = some i ∧ closeRefusal (v.vfs.openFiles i) privileged v.vfs.base.pid = none
  · obtain ⟨i, hi, href⟩ := hrel
    have hpres := closeRefusal_present href
    have hplain := h.plain i hpres
    obtain ⟨hr, ho⟩ := vfsClose_released hclose hi href
    have hout := outside_release hplain _ _ _ hr
    have hfss := fss_release hplain _ _ _ hr
    have hother : ∀ j, j ≠ i → s'.openFiles j = v.vfs.openFiles j := fun j hj => by rw [ho, Function.update_of_ne hj]
    have hset : (∀ j p, j ≠ i → (v.vfs.openFiles j).present = true →
        (v.vfs.openFiles j).file = some p ∨ (v.vfs.openFiles j).dirIter = some p →
        SameKind (v.vfs.base.heap p) (s'.base.heap p)) → Orderly (v.after s') := fun hk =>
      h.setSlot ho hout.rootfs hout.mountTable hfss hk fun hp => by rw [closed_present] at hp; cases hp
    rcases release_object hplain hr with ⟨p, d, hd, hit, hfrees⟩ | ⟨p, f, hn, hf, hfrees⟩ | ⟨hn, hh⟩
    · constructor
      · intro hsafe
        refine hset fun j q hj hjp hq => hfrees.kind ?_
        rintro rfl
        obtain ⟨a, ha⟩ := h.attached j hjp
        rcases hq with hq | hq
        · obtain ⟨f, hf, -⟩ := ha.file _ hq
          rw [hfrees.was] at hf
          cases hf
        · exact hsafe i _ hi href hd hit j hj hjp hq
      · intro hnd k q hk _ _ hkq j hj hjp hjq
        rw [hi] at hk
        cases hk
        rw [hit] at hkq
        cases hkq
        have hat := hnd j
        rw [show (v.after s').vfs.openFiles j = v.vfs.openFiles j from hother j hj] at hat
        obtain ⟨a, ha⟩ := hat hjp
        obtain ⟨d', hd', -⟩ := ha.dir p hjq
        have hgone : s'.base.heap p = none := by rw [hfrees.heap, Function.update_self]
        rw [show (v.after s').vfs.base.heap p = s'.base.heap p from rfl, hgone] at hd'
        cases hd'
    · refine ⟨fun _ => hset fun j q hj hjp hq => hfrees.kind ?_, fun _ k q hk _ hkd hkq => ?_⟩
      · rintro rfl
        obtain ⟨a, ha⟩ := h.attached j hjp
        rcases hq with hq | hq
        · exact hj (h.unshared j i _ hjp hpres hq hf)
        · obtain ⟨d, hd, -⟩ := ha.dir _ hq
          rw [hfrees.was] at hd
          cases hd
      · rw [hi] at hk
        cases hk
        rcases hn with hn | hn
        · rw [hn] at hkd
          cases hkd
        · rw [hn] at hkq
          cases hkq
    · refine ⟨fun _ => hset fun j q _ _ _ => by rw [hh]; exact .refl _, fun _ k q hk _ hkd hkq => ?_⟩
      rw [hi] at hk
      cases hk
      rcases hn with hn | hn
      · rw [hn] at hkd
        cases hkd
      · rw [hn] at hkq
        cases hkq
  · refine ⟨fun _ => ?_, fun _ i p hi href => absurd ⟨i, hi, href⟩ hrel⟩
    rcases vfsClose_cases hclose with rfl | ⟨i, hi, href, -⟩
    · exact h.calm rfl rfl rfl (.refl _) fun p => .refl _
    · exact absurd ⟨i, hi, href⟩ hrel

theorem kmalloc_ne_none {addr r : Option Nat} {o : Obj} (h : kmalloc addr o b = some (r, b')) :
    r ≠ none ↔ ∃ a, addr = some a ∧ b.heap a = none := by
  cases addr with
  | none =>
      cases h
      simp
  | some a =>
      cases ha : b.heap a with
      | none =>
          simp only [kmalloc, ha] at h
          cases h
          simp [ha]
      | some o' =>
          simp only [kmalloc, ha] at h
          cases h
          simp [ha]

theorem openAt_ne_none {fs : Option Nat} {path : Name} {g : Grant} {addr r : Option Nat}
    (h : openAt fs path g addr b = some (r, b')) :
    r ≠ none ↔ ∃ k σ f σ' a, fs = some k ∧ b.fss k = some σ ∧ ext2Open path σ = some (some f, σ') ∧
      addr = some a ∧ b.heap a = none := by
  obtain ⟨f, b₁, h₁, h₂⟩ := bind_some.mp h
  have hheap := (aside_onPath _ _ _ _ _ _ _ h₁).heap
  cases fs with
  | none =>
      cases h₂
      simp
  | some k =>
      obtain ⟨u, b₂, hrec, hrun⟩ := bind_some.mp h₁
      cases hrec
      obtain ⟨σ, σ', hσ, hx, -⟩ := runFs_some hrun
      have hσ : b.fss k = some σ := hσ
      cases f with
      | none =>
          cases h₂
          simp [hσ, hx]
      | some f =>
          rw [kmalloc_ne_none h₂, hheap]
          simp [hσ, hx]

/-- A copy has a file exactly when the root file system opens the path. -/
theorem copySlot_file {x y : VfsFile} (h : copySlot x addr b = some (y, b')) :
    y.file ≠ none ↔ Reopens b x addr := by
  rw [copySlot, get_bind] at h
  cases hp : x.path with
  | none =>
      rw [hp] at h
      cases h
      simp [Reopens, hp]
  | some p =>
      rw [hp] at h
      obtain ⟨file, b₁, h₁, h₂⟩ := bind_some.mp h
      cases h₂
      simp only
      rw [openAt_ne_none h₁]
      simp [Reopens, hp]

/-- `sys_dup` leaves nothing dangling exactly when it copies no slot of another file system with a file of the
root's. -/
theorem orderly_sysDup (h : Orderly v) {fd r : UInt64} (hdup : sysDup fd addr v.vfs = some (r, s')) :
    (MountOp.Safe v.vfs (.dup fd addr) → Orderly (v.after s')) ∧
      (NoDangling (v.after s') → MountOp.Safe v.vfs (.dup fd addr)) := by
  rcases sysDup_cases hdup with ⟨rfl, hno⟩ | ⟨j, i, y, hj, hjp, hfree, hcopy, ho⟩
  · refine ⟨fun _ => h.calm rfl rfl rfl (.refl _) fun p => .refl _, fun _ j hj hjp hfree => ?_⟩
    rcases hno with hno | hno
    · exact absurd hno hfree
    · rw [hno j hj] at hjp
      cases hjp
  · have hfss := fss_copySlot _ _ _ _ _ hcopy
    obtain ⟨hout, hy, hfile⟩ := copySlot_some hcopy
    obtain ⟨a, ha⟩ := h.attached j hjp
    have hyfs : y.fs = (v.vfs.openFiles j).fs := by rw [hy]
    have hmounted : s'.base.Mounted a := by
      rw [Base.Mounted, hout.rootfs, hout.mountTable]
      exact ha.mounted
    have hkeep : ∀ k p, (v.vfs.openFiles k).present = true →
        (v.vfs.openFiles k).file = some p ∨ (v.vfs.openFiles k).dirIter = some p →
        SameKind (v.vfs.base.heap p) (s'.base.heap p) := by
      intro k p hk hp
      rcases hfile with ⟨-, hh⟩ | ⟨q, b, f, -, -, hadds, -⟩
      · rw [hh]
        exact .refl _
      · exact hadds.kind (h.there hk hp)
    have hcarry : Attached (v.after s') (v.vfs.openFiles j) a :=
      ha.carry (h.live ha.mounted) hmounted fun p hp => hkeep j p hjp hp
    constructor
    · intro hsafe
      refine h.setSlot ho hout.rootfs hout.mountTable hfss (fun k p _ hk hp => hkeep k p hk hp) fun _ => ?_
      refine ⟨by rw [hy]; exact h.plain j hjp, ⟨a, by rw [hyfs]; exact ha.fs, hmounted, fun p hp => ?_, fun p hp => ?_⟩,
        fun p hp k _ hk hfk => ?_⟩
      · rcases hfile with ⟨hnone, -⟩ | ⟨q, b, f, -, hb, hadds, hopened⟩
        · rw [hnone] at hp
          cases hp
        · rw [hb] at hp
          obtain rfl : b = p := Option.some.inj hp
          have hnew : s'.base.heap b = some (.file f) := by rw [hadds.heap, Function.update_self]
          have hroot : (v.vfs.openFiles j).fs = v.vfs.base.rootfs := by
            refine (hsafe j hj hjp (by rw [hfree]; simp)).resolve_right fun hn => hn ?_
            exact (copySlot_file hcopy).mp (by rw [hb]; simp)
          refine ⟨f, hnew, ?_, after_openedOn_new hadds.fresh hnew |>.trans ?_⟩
          all_goals
            have he : some f.fs = some a := by rw [← hopened.fs, ← hroot, ha.fs]
            cases he
            rfl
      · exact hcarry.dir p (by rw [hy] at hp; exact hp)
      · rcases hfile with ⟨hnone, -⟩ | ⟨q, b, f, -, hb, hadds, -⟩
        · rw [hnone] at hp
          cases hp
        · rw [hb] at hp
          obtain rfl : b = p := Option.some.inj hp
          exact h.there hk (.inl hfk) hadds.fresh
    · intro hnd k hk _ _
      rw [hj] at hk
      cases hk
      by_contra hno
      rw [not_or, Classical.not_not] at hno
      obtain ⟨hroot, hre⟩ := hno
      have hself : (v.after s').vfs.openFiles i = y := by
        show s'.openFiles i = y
        rw [ho, Function.update_self]
      have hat := hnd i
      rw [hself] at hat
      obtain ⟨a', ha'⟩ := hat (by rw [hy]; exact hjp)
      rcases hfile with ⟨hnone, -⟩ | ⟨q, b, f, -, hb, hadds, hopened⟩
      · exact (copySlot_file hcopy).mpr hre hnone
      · obtain ⟨f', hf', hfs, -⟩ := ha'.file b hb
        have hnew : (v.after s').vfs.base.heap b = some (.file f) := by
          show s'.base.heap b = _
          rw [hadds.heap, Function.update_self]
        rw [hnew] at hf'
        cases hf'
        exact hroot (by rw [← hyfs, ha'.fs, hopened.fs, hfs])

end Slots

/-! ### Mounting and unmounting -/

theorem mountAt_some {dev : Ext2.Device} {m : MountFaults} {faults : Nat → Bool} {addr r : Option Nat}
    (h : mountAt dev m faults addr b = some (r, b')) :
    (r = none ∧ b' = b) ∨ ∃ a fs, r = some a ∧ b.fss a = none ∧
      b' = { b with fss := Function.update b.fss a (some fs) } := by
  simp only [mountAt] at h
  split at h
  · cases h; exact .inl ⟨rfl, rfl⟩
  · next a =>
      split at h
      · cases h; exact .inl ⟨rfl, rfl⟩
      · next hfree =>
          split at h
          · cases h
          · cases h; exact .inl ⟨rfl, rfl⟩
          · next fs _ => cases h; exact .inr ⟨a, fs, rfl, hfree, rfl⟩

theorem firstInactive_some {i : Fin maxMounts} (h : firstInactive b = some i) :
    (b.mountTable i).active = false := by
  have := List.find?_some h
  simpa using this

theorem mountedAs_some {target : Name} {i : Fin maxMounts} (h : mountedAs b target = some i) :
    (b.mountTable i).active = true := by
  have := List.find?_some h
  simp only [Bool.and_eq_true] at this
  exact this.1

/-- An entry of the mount table got new contents, and an address a file system, or none. -/
structure Remounts (a : Nat) (o : Option Fs) (i : Fin maxMounts) (m : Mount) (b b' : Base) : Prop where
  rootfs : b'.rootfs = b.rootfs
  heap : b'.heap = b.heap
  fss : b'.fss = Function.update b.fss a o
  mountTable : b'.mountTable = Function.update b.mountTable i m

/-- `VFS_Mount` fails and changes nothing, or it fills an entry with a new file system. -/
theorem vfsMount_cases {dev : Option Ext2.Device} {target : Name} {m : MountFaults} {faults : Nat → Bool}
    (h : vfsMount dev target m faults addr b = some (r, b')) :
    b' = b ∨ ∃ a fs i mp, b.fss a = none ∧ (b.mountTable i).active = false ∧
      Remounts a (some fs) i ⟨mp, some a, true⟩ b b' := by
  cases dev with
  | none =>
      cases h
      exact .inl rfl
  | some dev =>
      obtain ⟨o, b₁, h₁, h₂⟩ := bind_some.mp h
      rcases mountAt_some h₁ with ⟨rfl, rfl⟩ | ⟨a, fs, rfl, hfree, rfl⟩
      · cases h₂
        exact .inl rfl
      · simp only [get_bind] at h₂
        cases hi : firstInactive { b with fss := Function.update b.fss a (some fs) } with
        | some i =>
            rw [hi] at h₂
            cases h₂
            exact .inr ⟨a, fs, i, _, hfree, firstInactive_some hi, rfl, rfl, rfl, rfl⟩
        | none =>
            rw [hi] at h₂
            left
            obtain ⟨u, b₂, h₃, h₄⟩ := bind_some.mp h₂
            cases h₄
            simp only [unmountAt, Function.update_self] at h₃
            cases h₃
            rw [Function.update_idem, ← hfree, Function.update_eq_self]

/-- `VFS_Unmount_Path` finds nothing of the name, or it gives back the file system of the entry. -/
theorem vfsUnmountPath_cases {target : Name} (h : vfsUnmountPath target b = some (r, b')) :
    (mountedAs b target = none ∧ b' = b) ∨ ∃ i, mountedAs b target = some i ∧
      ∀ a, (b.mountTable i).fs = some a → Remounts a none i { b.mountTable i with active := false } b b' := by
  rw [vfsUnmountPath, get_bind] at h
  cases hi : mountedAs b target with
  | none =>
      rw [hi] at h
      cases h
      exact .inl ⟨rfl, rfl⟩
  | some i =>
      rw [hi] at h
      obtain ⟨u, b₁, h₁, h₂⟩ := bind_some.mp h
      cases h₂
      refine .inr ⟨i, rfl, fun a ha => ?_⟩
      rw [ha, unmountAt] at h₁
      split at h₁
      · cases h₁
      · cases h₁
        exact ⟨rfl, rfl, rfl, rfl⟩

section MountTable

variable {v : Counted} {s' : State}

/-- A new mount is of no slot that is open. -/
theorem Orderly.mount (h : Orderly v) {fs : Fs} {i : Fin maxMounts} {mp : Name}
    (hfree : v.vfs.base.fss a = none) (hi : (v.vfs.base.mountTable i).active = false)
    (ho : s'.openFiles = v.vfs.openFiles) (hs : Remounts a (some fs) i ⟨mp, some a, true⟩ v.vfs.base s'.base) :
    Orderly (v.after s') := by
  have hroot := hs.rootfs
  have hself : s'.base.mountTable i = ⟨mp, some a, true⟩ := by rw [hs.mountTable, Function.update_self]
  have hother : ∀ k, k ≠ i → s'.base.mountTable k = v.vfs.base.mountTable k := fun k hk => by
    rw [hs.mountTable, Function.update_of_ne hk]
  have hnew : s'.base.fss a = some fs := by rw [hs.fss, Function.update_self]
  have hne : ∀ k, (v.vfs.base.fss k).isSome → k ≠ a := by
    rintro k hk rfl
    rw [hfree] at hk
    cases hk
  have hlive : ∀ k, (v.vfs.base.fss k).isSome → (s'.base.fss k).isSome := fun k hk => by
    rw [hs.fss, Function.update_of_ne (hne k hk)]
    exact hk
  have hold : ∀ k, (v.vfs.base.mountTable k).active = true → (v.vfs.base.mountTable k).fs ≠ some a := by
    intro k hk he
    obtain ⟨k', hk', hlk, -⟩ := h.mounts k hk
    rw [he] at hk'
    cases hk'
    exact hne a hlk rfl
  refine h.remount ho (fun p => by rw [hs.heap]; exact .refl _) (fun k hk => hlive k (h.root k (hroot ▸ hk))) (fun k hk => ?_) (fun k l hk hl he => ?_)
    fun j k hj hjk hm => ?_
  · by_cases e : k = i
    · rw [e, hself]
      refine ⟨a, rfl, by rw [hnew]; rfl, fun hr => ?_⟩
      exact hne a (h.root a (hroot ▸ hr)) rfl
    · rw [hother k e] at hk ⊢
      obtain ⟨k', hk', hlk, hrk⟩ := h.mounts k hk
      exact ⟨k', hk', hlive k' hlk, by rw [hroot]; exact hrk⟩
  · by_cases ek : k = i
    · by_cases el : l = i
      · rw [ek, el]
      · rw [ek, hself, hother l el] at he
        rw [hother l el] at hl
        exact absurd he.symm (hold l hl)
    · by_cases el : l = i
      · rw [el, hself, hother k ek] at he
        rw [hother k ek] at hk
        exact absurd he (hold k hk)
      · rw [hother k ek] at hk he
        rw [hother l el] at hl he
        exact h.apart k l hk hl he
  · rcases hm with hr | ⟨l, hl, hfl⟩
    · exact .inl (hroot.trans hr)
    · have hli : l ≠ i := by
        rintro rfl
        rw [hi] at hl
        cases hl
      exact .inr ⟨l, by rw [hother l hli]; exact hl, by rw [hother l hli]; exact hfl⟩

/-- An unmount leaves nothing dangling exactly when nothing is open on the file system. -/
theorem Orderly.unmount (h : Orderly v) {i : Fin maxMounts} (hi : (v.vfs.base.mountTable i).active = true)
    (ha : (v.vfs.base.mountTable i).fs = some a) (ho : s'.openFiles = v.vfs.openFiles)
    (hs : Remounts a none i { v.vfs.base.mountTable i with active := false } v.vfs.base s'.base) :
    ((∀ j, (v.vfs.openFiles j).present = true → (v.vfs.openFiles j).fs ≠ some a) → Orderly (v.after s')) ∧
      (NoDangling (v.after s') → ∀ j, (v.vfs.openFiles j).present = true → (v.vfs.openFiles j).fs ≠ some a) := by
  have hroot := hs.rootfs
  have hnotRoot : v.vfs.base.rootfs ≠ some a := by
    obtain ⟨a', ha', -, hr⟩ := h.mounts i hi
    rw [ha] at ha'
    cases ha'
    exact hr
  have hlive : ∀ k, k ≠ a → s'.base.fss k = v.vfs.base.fss k := fun k hk => by rw [hs.fss, Function.update_of_ne hk]
  have hother : ∀ k, k ≠ i → s'.base.mountTable k = v.vfs.base.mountTable k := fun k hk => by
    rw [hs.mountTable, Function.update_of_ne hk]
  have hentry : ∀ k, (s'.base.mountTable k).active = true → k ≠ i := by
    rintro k hk rfl
    rw [hs.mountTable, Function.update_self] at hk
    cases hk
  constructor
  · intro hsafe
    refine h.remount ho (fun p => by rw [hs.heap]; exact .refl _) (fun k hk => ?_) (fun k hk => ?_) (fun k l hk hl he => ?_) fun j k hj hjk hm => ?_
    · rw [hroot] at hk
      rw [hlive k (by rintro rfl; exact hnotRoot hk)]
      exact h.root k hk
    · have hki := hentry k hk
      rw [hother k hki] at hk ⊢
      obtain ⟨k', hk', hlk, hrk⟩ := h.mounts k hk
      have hne : k' ≠ a := by
        rintro rfl
        exact hki (h.apart k i hk hi (hk'.trans ha.symm))
      exact ⟨k', hk', by rw [hlive k' hne]; exact hlk, by rw [hroot]; exact hrk⟩
    · have hki := hentry k hk
      have hli := hentry l hl
      rw [hother k hki] at hk he
      rw [hother l hli] at hl he
      exact h.apart k l hk hl he
    · rcases hm with hr | ⟨l, hl, hfl⟩
      · exact .inl (hroot.trans hr)
      · have hli : l ≠ i := by
          rintro rfl
          rw [ha] at hfl
          cases hfl
          exact hsafe j hj hjk
        exact .inr ⟨l, by rw [hother l hli]; exact hl, by rw [hother l hli]; exact hfl⟩
  · intro hnd j hj hja
    obtain ⟨k, hk⟩ : ∃ k, Attached (v.after s') (s'.openFiles j) k := hnd j (by show (s'.openFiles j).present = true; rw [ho]; exact hj)
    have hfs := hk.fs
    rw [ho, hja] at hfs
    cases hfs
    rcases (show s'.base.Mounted a from hk.mounted) with hr | ⟨l, hl, hfl⟩
    · exact hnotRoot (hroot ▸ hr)
    · have hli := hentry l hl
      rw [hother l hli] at hl hfl
      exact hli (h.apart l i hl hi (hfl.trans ha.symm))

end MountTable

/-! ### Runs -/

section Runs

variable {v : Counted} {s' : State}

theorem Aside.mild {E : Event → Prop} {A : Nat → Prop} (h : Aside E b b') : Mild A b b' :=
  .of_heap ⟨h.rootfs, h.net, h.mountTable, h.devices, h.strings⟩ h.heap

theorem Orderly.mild {A : Nat → Prop} (h : Orderly v) (ho : s'.openFiles = v.vfs.openFiles)
    (hm : Mild A v.vfs.base s'.base) (hf : SameFss v.vfs.base s'.base) : Orderly (v.after s') :=
  h.calm ho hm.rootfs hm.mountTable hf hm.kind

theorem orderly_vfsRead (h : Orderly v) {count : Nat} {frame : Registers} {r : Option Int32 × List UInt8}
    (hread : vfsRead fd count frame v.vfs = some (r, s')) : Orderly (v.after s') := by
  have hfss : SameFss v.vfs.base s'.base := by
    simp only [vfsRead] at hread
    cases hi : slotOf fd with
    | none =>
        rw [hi] at hread
        cases hread
        exact .refl _
    | some i =>
        rw [hi] at hread
        simp only [get_bind] at hread
        exact fss_readSlot _ _ _ _ _ _ (onBase_some hread).1
  obtain ⟨ho, hidle | ⟨i, a, f, f', -, -, -, -, ht⟩⟩ := vfsRead_some h.plain hread
  · exact h.mild ho (hidle.mild (A := fun _ => False)) hfss
  · exact h.mild ho ht.mild hfss

theorem orderly_vfsWrite (h : Orderly v) {data : List UInt8} {privileged : Bool} {frame : Registers}
    {r : Option Int32} (hwrite : vfsWrite fd data privileged frame v.vfs = some (r, s')) : Orderly (v.after s') := by
  have hfss : SameFss v.vfs.base s'.base := by
    simp only [vfsWrite] at hwrite
    cases hi : slotOf fd with
    | none =>
        rw [hi] at hwrite
        cases hwrite
        exact .refl _
    | some i =>
        rw [hi] at hwrite
        simp only [get_bind] at hwrite
        exact fss_writeSlot _ _ _ _ _ _ _ (onBase_some hwrite).1
  obtain ⟨ho, haside | ⟨i, b₁, -, hcheck, hrest⟩⟩ := vfsWrite_some h.plain hwrite
  · exact h.mild ho (haside.mild (A := fun _ => False)) hfss
  · rcases hrest with hidle | ⟨a, f, f', -, ht, -⟩
    · exact h.mild ho ((hcheck.toAside.mild (A := fun _ => False)).trans hidle.mild) hfss
    · exact h.mild ho (hcheck.toAside.mild.trans ht.mild) hfss

/-- **A call leaves all slots in use attached exactly when it is `Safe`**, and then everything else in order too. -/
theorem attached_step (h : Orderly v) {op : MountOp} {v' : Counted} (hs : mountStep v op = some v') :
    (NoDangling v' ↔ op.Safe v.vfs) ∧ (op.Safe v.vfs → Orderly v') := by
  obtain ⟨⟨u, s'⟩, hp, rfl⟩ := Option.map_eq_some_iff.mp hs
  have hsafe : ∀ {op : MountOp}, op.Safe v.vfs → Orderly (v.after s') →
      (NoDangling (v.after s') ↔ op.Safe v.vfs) ∧ (op.Safe v.vfs → Orderly (v.after s')) :=
    fun hop ho => ⟨⟨fun _ => hop, fun _ => ho.attached⟩, fun _ => ho⟩
  have hboth : ∀ {op : MountOp}, (op.Safe v.vfs → Orderly (v.after s')) ∧ (NoDangling (v.after s') → op.Safe v.vfs) →
      (NoDangling (v.after s') ↔ op.Safe v.vfs) ∧ (op.Safe v.vfs → Orderly (v.after s')) :=
    fun hop => ⟨⟨hop.2, fun ho => (hop.1 ho).attached⟩, hop.1⟩
  cases op with
  | mount dev target m faults addr =>
      obtain ⟨r, s₁, h₁, h₂⟩ := bind_some.mp hp
      cases h₂
      obtain ⟨hb, ho⟩ := onBase_some h₁
      refine hsafe trivial ?_
      rcases vfsMount_cases hb with he | ⟨a, fs, i, mp, hfree, hi, hm⟩
      · exact h.calm ho (by rw [he]) (by rw [he]) (by rw [he]; exact .refl _) fun p => by rw [he]; exact .refl _
      · exact h.mount hfree hi ho hm
  | unmount target =>
      obtain ⟨r, s₁, h₁, h₂⟩ := bind_some.mp hp
      cases h₂
      obtain ⟨hb, ho⟩ := onBase_some h₁
      rcases vfsUnmountPath_cases hb with ⟨hno, he⟩ | ⟨i, hi, hm⟩
      · refine hsafe (fun i a hi => ?_) (h.calm ho (by rw [he]) (by rw [he]) (by rw [he]; exact .refl _) fun p => by
          rw [he]; exact .refl _)
        rw [hno] at hi
        cases hi
      · obtain ⟨a, ha, -, -⟩ := h.mounts i (mountedAs_some hi)
        obtain ⟨hto, hfrom⟩ := h.unmount (mountedAs_some hi) ha ho (hm a ha)
        refine hboth ⟨fun hop => hto (hop i a hi ha), fun hnd k b hk hkb => ?_⟩
        rw [hi] at hk
        cases hk
        rw [ha] at hkb
        cases hkb
        exact hfrom hnd
  | «open» path privileged byKernel addr =>
      obtain ⟨r, s₁, h₁, h₂⟩ := bind_some.mp hp
      cases h₂
      exact hsafe trivial (orderly_vfsOpen h h₁)
  | close fd privileged =>
      obtain ⟨r, s₁, h₁, h₂⟩ := bind_some.mp hp
      cases h₂
      exact hboth (orderly_vfsClose h h₁)
  | read fd count frame =>
      obtain ⟨r, s₁, h₁, h₂⟩ := bind_some.mp hp
      cases h₂
      exact hsafe trivial (orderly_vfsRead h h₁)
  | write fd data privileged frame =>
      obtain ⟨r, s₁, h₁, h₂⟩ := bind_some.mp hp
      cases h₂
      exact hsafe trivial (orderly_vfsWrite h h₁)
  | dup fd addr =>
      obtain ⟨r, s₁, h₁, h₂⟩ := bind_some.mp hp
      cases h₂
      exact hboth (orderly_sysDup h h₁)
  | runAs c =>
      cases hp
      exact hsafe trivial (h.calm rfl rfl rfl (.refl _) fun p => .refl _)
  | memory strings =>
      cases hp
      exact hsafe trivial (h.calm rfl rfl rfl (.refl _) fun p => .refl _)
  | device a disk =>
      cases hp
      refine hsafe trivial (h.calm rfl rfl rfl (fun k => ?_) fun p => .refl _)
      by_cases e : k = a
      · simp only [e, if_true, Option.isSome_map]
      · simp only [e, if_false]

end Runs

/-! ### A file system that is mounted, and goes away -/

namespace Tiny

def superBlock : Bytes :=
  let counts := wr32 (wr32 (wr32 (wr32 (wr32 (fun _ => 0) 0 16) 4 32) 12 24) 16 6) 20 1
  wr16 (wr16 (wr32 (wr32 counts 32 8192) 40 16) 56 superMagic) 88 128

/-- A device with the small file system. -/
def image : Ext2.Device where
  bytes p := if p / 1024 = 1 then superBlock (p % 1024) else Ext2.Tiny.disk (p / 1024) (p % 1024)
  sectorSize := 512
  sectorCount := 64

def counted : Counted := ⟨state, 1, fun _ => 0, fun _ => 0⟩

theorem counted_booted : Booted counted where
  root a ha := by cases ha; rfl
  mounts _ := rfl
  empty _ := rfl
  clock _ := Nat.one_pos

/-- `/a` is mounted, and opened by the kernel. -/
def mountAndOpen : List MountOp :=
  [.mount (some image) [47, 97] {} (fun _ => false) (some 1), .open 2 true true (some 0)]

/-- The first slot: whether it is in use, and its file system; the root, and whether anything else is mounted. -/
def firstSlot (v : Counted) : Bool × Option Nat × Option Nat × Bool :=
  let x := v.vfs.openFiles ⟨0, Nat.succ_pos _⟩
  (x.present, x.fs, v.vfs.base.rootfs, (List.finRange maxMounts).any fun i => (v.vfs.base.mountTable i).active)

end Tiny

/-- **No descriptor dangles in any state of a run exactly when every call of it is `Safe`.** -/
theorem no_dangling_iff {v : Counted} (h : Booted v) (ops : List MountOp) :
    Along mountStep (fun _ _ v' => NoDangling v') v ops ↔ Along mountStep (fun v op _ => op.Safe v.vfs) v ops := by
  refine along_iff_of_inv (fun s op s' (hv : Orderly s) hs => ?_) h.orderly
  exact attached_step hv hs

theorem no_dangling_iff_open : Along mountStep (fun _ _ v' => NoDangling v') Tiny.counted Tiny.mountAndOpen :=
  (no_dangling_iff Tiny.counted_booted _).mpr fun _ _ => ⟨trivial, fun _ _ => ⟨trivial, trivial⟩⟩

/-- **An open descriptor does not keep its file system mounted.** -/
theorem unmount_dangles : ¬ ∀ (v : Counted) (ops : List MountOp), Booted v →
    Along mountStep (fun _ _ v' => NoDangling v') v ops := by
  intro h
  have hrun : ((run mountStep Tiny.counted Tiny.mountAndOpen).bind fun v =>
      (mountStep v (.unmount [47, 97])).map Tiny.firstSlot) = some (true, some 1, some 0, false) := by decide +kernel
  obtain ⟨v, hv, hstep⟩ := Option.bind_eq_some_iff.mp hrun
  obtain ⟨v', hv', hslot⟩ := Option.map_eq_some_iff.mp hstep
  simp only [Tiny.firstSlot, Prod.mk.injEq] at hslot
  obtain ⟨hp, hfs, hroot, hnone⟩ := hslot
  have halong := h Tiny.counted (Tiny.mountAndOpen ++ [.unmount [47, 97]]) Tiny.counted_booted
  obtain ⟨a, ha⟩ := along_last halong hv hv' _ hp
  have hfs' := ha.fs
  rw [hfs] at hfs'
  cases hfs'
  rcases ha.mounted with hr | ⟨i, hi, -⟩
  · rw [hroot] at hr
    cases hr
  · rw [List.any_eq_false] at hnone
    exact hnone i (List.mem_finRange i) hi

end Blackmount.Vfs
