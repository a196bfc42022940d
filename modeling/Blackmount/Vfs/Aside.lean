import Blackmount.Vfs.Sys
import Blackmount.Proc.Moves
import Blackmount.Lib.Action

/-!
# Vfs — what a call leaves alone

Looking up a path, checking a permission, creating a file: such calls change a file system and add
to the log, and leave the heap, the processes, the mounts and the strings as they are (`Aside`).
`Logs E` is the part of this that is about the log: what was added satisfies `E`.
-/

namespace Blackmount.Vfs
open Blackmount.Lib Blackmount.Ext2 Blackmount.User Blackmount.Proc Blackmount.Net

/-- The log grew by events that satisfy `E`. -/
structure Logs (E : Event → Prop) (b b' : Base) : Prop where
  rootfs : b'.rootfs = b.rootfs
  log : ∃ es, b'.log = b.log ++ es ∧ ∀ e ∈ es, E e

variable {E F : Event → Prop}

namespace Logs

variable {E : Event → Prop} {b b' b'' : Base}

theorem refl (b : Base) : Logs E b b := ⟨rfl, [], by simp, by simp⟩

theorem trans (h₁ : Logs E b b') (h₂ : Logs E b' b'') : Logs E b b'' := by
  obtain ⟨es₁, e₁, g₁⟩ := h₁.log
  obtain ⟨es₂, e₂, g₂⟩ := h₂.log
  refine ⟨h₂.rootfs.trans h₁.rootfs, es₁ ++ es₂, by rw [e₂, e₁, List.append_assoc], ?_⟩
  intro e he
  rcases List.mem_append.mp he with he | he
  · exact g₁ e he
  · exact g₂ e he

theorem mono (h : Logs E b b') (hEF : ∀ e, E e → F e) : Logs F b b' := by
  obtain ⟨es, e, g⟩ := h.log
  exact ⟨h.rootfs, es, e, fun x hx => hEF x (g x hx)⟩

/-- Every event added satisfies `E`. -/
theorem of_mem (h : Logs E b b') {e : Event} (he : e ∈ b'.log.drop b.log.length) : E e := by
  obtain ⟨es, e', g⟩ := h.log
  rw [e', List.drop_left] at he
  exact g e he

end Logs

/-- Only file systems and the log changed, the log by events that satisfy `E`. -/
structure Aside (E : Event → Prop) (b b' : Base) : Prop extends Logs E b b' where
  net : b'.net = b.net
  mountTable : b'.mountTable = b.mountTable
  devices : b'.devices = b.devices
  heap : b'.heap = b.heap
  strings : b'.strings = b.strings
  answers : b'.answers = b.answers

namespace Aside

variable {E : Event → Prop} {b b' b'' : Base}

theorem refl (b : Base) : Aside E b b := ⟨.refl b, rfl, rfl, rfl, rfl, rfl, rfl⟩

theorem trans (h₁ : Aside E b b') (h₂ : Aside E b' b'') : Aside E b b'' :=
  ⟨h₁.toLogs.trans h₂.toLogs, h₂.net.trans h₁.net, h₂.mountTable.trans h₁.mountTable,
    h₂.devices.trans h₁.devices, h₂.heap.trans h₁.heap, h₂.strings.trans h₁.strings,
    h₂.answers.trans h₁.answers⟩

theorem mono (h : Aside E b b') (hEF : ∀ e, E e → F e) : Aside F b b' :=
  ⟨h.toLogs.mono hEF, h.net, h.mountTable, h.devices, h.heap, h.strings, h.answers⟩

theorem pid (h : Aside E b b') : b'.pid = b.pid := by rw [Base.pid, h.net, ← Base.pid]

end Aside

/-- The program only changes file systems and the log. -/
abbrev AsideM {α : Type} (E : Event → Prop) (m : BaseM α) : Prop := Keeps (Aside E) m

section Rules

variable {α β : Type} {E : Event → Prop}

theorem aside_pure (a : α) : AsideM E (pure a) := .pure Aside.refl a

theorem aside_get : AsideM E (get : BaseM Base) := .get Aside.refl

theorem AsideM.bind {m : BaseM α} {f : α → BaseM β} (hm : AsideM E m) (hf : ∀ a, AsideM E (f a)) :
    AsideM E (m >>= f) :=
  Keeps.bind Aside.trans hm hf

theorem AsideM.mono {m : BaseM α} (hm : AsideM E m) (hEF : ∀ e, E e → F e) :
    AsideM F m :=
  Keeps.mono (fun h => Aside.mono h hEF) hm

end Rules

/-! ### Closing a socket -/

/-- The same process runs, with the same memory, and the processes are who they were. -/
structure SameCaller (k k' : Kernel) : Prop where
  current : k'.currentProc = k.currentProc
  cr3 : k'.cr3 = k.cr3
  users : k'.users = k.users
  pid : ∀ i, (k'.procTable i).pid = (k.procTable i).pid
  owner : ∀ i, (k'.procTable i).owner = (k.procTable i).owner

namespace SameCaller

theorem refl (k : Kernel) : SameCaller k k := ⟨rfl, rfl, rfl, fun _ => rfl, fun _ => rfl⟩

theorem trans {a b c : Kernel} (h₁ : SameCaller a b) (h₂ : SameCaller b c) : SameCaller a c :=
  ⟨h₂.current.trans h₁.current, h₂.cr3.trans h₁.cr3, h₂.users.trans h₁.users,
    fun i => (h₂.pid i).trans (h₁.pid i), fun i => (h₂.owner i).trans (h₁.owner i)⟩

end SameCaller

theorem sameCaller_procUnblock (k : Kernel) (pid : Int32) : SameCaller k (procUnblock k pid) := by
  simp only [procUnblock]
  split
  · exact .refl k
  · refine ⟨rfl, rfl, rfl, fun i => ?_, fun i => ?_⟩ <;>
      (rw [Kernel.modify_apply]; split <;> simp_all [Pcb.setState])

theorem sameCaller_procUnblockAll (k : Kernel) (pids : List Int32) :
    SameCaller k (procUnblockAll k pids) := by
  induction pids generalizing k with
  | nil => exact .refl k
  | cons pid pids ih => exact (sameCaller_procUnblock k pid).trans (ih _)

theorem sameCaller_unixSockDestroy (n : NetKernel) (id : Int32) :
    SameCaller n.proc (unixSockDestroy n id).proc := by
  rw [unixSockDestroy_proc, destroySignals]
  cases unixSockGet n id with
  | none => exact .refl _
  | some i => exact sameCaller_procUnblockAll _ _

/-! ### Calls on a path -/

/-- The event is the lookup of the path on the file system. -/
def LookupAt (fs : Option Nat) (path : Name) (e : Event) : Prop := ∃ a, fs = some a ∧ e = .lookup a path

def Event.isLookup : Event → Prop
  | .lookup _ _ => True
  | _ => False

theorem LookupAt.isLookup {fs : Option Nat} {path : Name} {e : Event} (h : LookupAt fs path e) :
    e.isLookup := by
  obtain ⟨a, -, rfl⟩ := h
  trivial

theorem aside_record {e : Event} (he : E e) : AsideM E (record e) := by
  intro b r b' h
  cases h
  exact ⟨⟨rfl, [e], rfl, by simpa using he⟩, rfl, rfl, rfl, rfl, rfl, rfl⟩

variable {b b' : Base}

theorem runFs_some {α : Type} {a : Nat} {m : Ext2M α} {r : α}
    (h : runFs a m b = some (r, b')) :
    ∃ σ σ', b.fss a = some σ ∧ m σ = some (r, σ') ∧
      b' = { b with fss := Function.update b.fss a (some σ') } := by
  simp only [runFs] at h
  split at h
  · cases h
  · next σ hσ =>
      split at h
      · cases h
      · next r' σ' hm =>
          cases h
          exact ⟨σ, σ', hσ, hm, rfl⟩

theorem aside_runFs {α : Type} (a : Nat) (m : Ext2M α) : AsideM E (runFs a m) := by
  intro b r b' h
  obtain ⟨σ, σ', -, -, rfl⟩ := runFs_some h
  exact ⟨⟨rfl, [], by simp, by simp⟩, rfl, rfl, rfl, rfl, rfl, rfl⟩

theorem aside_onPath {α : Type} (fs : Option Nat) (path : Name) (null : α) (m : Ext2M α) :
    AsideM (LookupAt fs path) (onPath fs path null m) := by
  cases fs with
  | none => exact aside_pure _
  | some a => exact (aside_record ⟨a, rfl, rfl⟩).bind fun _ => aside_runFs _ _

theorem aside_vfsAccessOk (fs : Option Nat) (path : Name) (mask : Nat) (privileged : Bool) :
    AsideM (LookupAt fs path) (vfsAccessOk fs path mask privileged) := by
  refine .ite (aside_pure _) (aside_get.bind fun b => .ite (aside_pure _) ?_)
  exact (aside_onPath _ _ _ _).bind fun _ => aside_pure _

theorem aside_statIsDir (fs : Option Nat) (rel : Name) :
    AsideM (LookupAt fs rel) (statIsDir fs rel) := by
  refine (aside_onPath _ _ _ _).bind fun r => ?_
  cases r <;> exact aside_pure _

/-- `VFS_Create` looks up what `resolve_fs` makes of its path, and nothing else. -/
theorem aside_vfsCreate {path : Name} {isDir : Bool} {stack : Name} {r : Int32}
    (h : vfsCreate path isDir stack b = some (r, b')) :
    Aside (LookupAt (resolveFs b path).1 (resolveFs b path).2) b b' := by
  rw [vfsCreate, get_bind] at h
  refine ((aside_vfsAccessOk _ _ _ _).bind fun ok => .ite (aside_pure _) (.ite ?_ ?_)) b r b' h
  · exact (aside_onPath _ _ _ _).bind fun _ => .ite (aside_pure _) (aside_pure _)
  · exact (aside_onPath _ _ _ _).bind fun _ => .ite (aside_pure _) (aside_pure _)

/-! ### Opening -/

/-- The program adds only events that satisfy `E`. -/
abbrev LogsM {α : Type} (E : Event → Prop) (m : BaseM α) : Prop := Keeps (Logs E) m

section LogsRules

variable {α β : Type} {E : Event → Prop}

theorem logs_pure (a : α) : LogsM E (pure a) := .pure Logs.refl a

theorem logs_get : LogsM E (get : BaseM Base) := .get Logs.refl

theorem LogsM.bind {m : BaseM α} {f : α → BaseM β} (hm : LogsM E m) (hf : ∀ a, LogsM E (f a)) :
    LogsM E (m >>= f) :=
  Keeps.bind Logs.trans hm hf

theorem LogsM.mono {m : BaseM α} (hm : LogsM E m) (hEF : ∀ e, E e → F e) :
    LogsM F m :=
  Keeps.mono (fun h => Logs.mono h hEF) hm

theorem AsideM.logs {m : BaseM α} (hm : AsideM E m) : LogsM E m := Keeps.mono (fun h => h.toLogs) hm

end LogsRules

theorem logs_kmalloc (addr : Option Nat) (o : Obj) : LogsM E (kmalloc addr o) := by
  intro b r b' h
  simp only [kmalloc] at h
  split at h
  · cases h; exact .refl b
  · split at h
    · cases h; exact .refl b
    · cases h; exact ⟨rfl, [], by simp, by simp⟩

theorem logs_keepFile (fs : Option Nat) (g : Grant) (addr : Option Nat)
    (f : Option Ext2.File) : LogsM E (keepFile fs g addr f) := by
  cases fs <;> cases f <;> first | exact logs_pure _ | exact logs_kmalloc _ _

theorem logs_keepDir (fs : Option Nat) (addr : Option Nat) (i : Option DirIter) :
    LogsM E (keepDir fs addr i) := by
  cases fs <;> cases i <;> first | exact logs_pure _ | exact logs_kmalloc _ _

theorem logs_openAt (fs : Option Nat) (path : Name) (g : Grant) (addr : Option Nat) :
    LogsM (LookupAt fs path) (openAt fs path g addr) :=
  (aside_onPath _ _ _ _).logs.bind fun _ => logs_keepFile _ _ _ _

theorem logs_opendirAt (fs : Option Nat) (path : Name) (addr : Option Nat) :
    LogsM (LookupAt fs path) (opendirAt fs path addr) :=
  (aside_onPath _ _ _ _).logs.bind fun _ => logs_keepDir _ _ _

variable {privileged byKernel : Bool} {addr : Option Nat}

/-- `VFS_Open` looks up what `resolve_fs` makes of its path, and nothing else. -/
theorem logs_openObject {path : Name}
    {r : Except Errno Opening} (h : openObject path privileged byKernel addr b = some (r, b')) :
    Logs (LookupAt (resolveFs b path).1 (resolveFs b path).2) b b' := by
  rw [openObject, get_bind] at h
  refine ((aside_vfsAccessOk _ _ _ _).logs.bind fun ok => .ite (logs_pure _) ?_) b r b' h
  refine (aside_statIsDir _ _).logs.bind fun isDir => .ite ?_ ?_
  · refine (logs_opendirAt _ _ _).bind fun o => ?_
    cases o <;> exact logs_pure _
  · refine (logs_openAt _ _ _ _).bind fun o => ?_
    cases o <;> exact logs_pure _

/-- Only file systems, the heap, the log and what devices will answer changed. -/
structure SameOutside (b b' : Base) : Prop where
  rootfs : b'.rootfs = b.rootfs
  net : b'.net = b.net
  mountTable : b'.mountTable = b.mountTable
  devices : b'.devices = b.devices
  strings : b'.strings = b.strings

namespace SameOutside

theorem refl (b : Base) : SameOutside b b := ⟨rfl, rfl, rfl, rfl, rfl⟩

theorem trans {a b c : Base} (h₁ : SameOutside a b) (h₂ : SameOutside b c) : SameOutside a c :=
  ⟨h₂.rootfs.trans h₁.rootfs, h₂.net.trans h₁.net, h₂.mountTable.trans h₁.mountTable,
    h₂.devices.trans h₁.devices, h₂.strings.trans h₁.strings⟩

theorem pid (h : SameOutside b b') : b'.pid = b.pid := by rw [Base.pid, h.net, ← Base.pid]

end SameOutside

abbrev OutsideM {α : Type} (m : BaseM α) : Prop := Keeps SameOutside m

section OutsideRules

variable {α β : Type}

theorem outside_pure (a : α) : OutsideM (pure a) := .pure SameOutside.refl a

theorem OutsideM.bind {m : BaseM α} {f : α → BaseM β} (hm : OutsideM m) (hf : ∀ a, OutsideM (f a)) :
    OutsideM (m >>= f) :=
  Keeps.bind SameOutside.trans hm hf

theorem AsideM.outside {m : BaseM α} (hm : AsideM E m) : OutsideM m :=
  Keeps.mono (fun h => ⟨h.rootfs, h.net, h.mountTable, h.devices, h.strings⟩) hm

end OutsideRules

theorem outside_kmalloc (addr : Option Nat) (o : Obj) : OutsideM (kmalloc addr o) := by
  intro b r b' h
  simp only [kmalloc] at h
  split at h
  · cases h; exact .refl b
  · split at h
    · cases h; exact .refl b
    · cases h; exact ⟨rfl, rfl, rfl, rfl, rfl⟩

theorem outside_openAt (fs : Option Nat) (path : Name) (g : Grant) (addr : Option Nat) :
    OutsideM (openAt fs path g addr) := by
  refine (aside_onPath fs path _ _).outside.bind fun f => ?_
  cases fs <;> cases f <;> first | exact outside_pure _ | exact outside_kmalloc _ _

theorem outside_opendirAt (fs : Option Nat) (path : Name) (addr : Option Nat) :
    OutsideM (opendirAt fs path addr) := by
  refine (aside_onPath fs path _ _).outside.bind fun i => ?_
  cases fs <;> cases i <;> first | exact outside_pure _ | exact outside_kmalloc _ _

theorem outside_openObject (path : Name) (privileged byKernel : Bool) (addr : Option Nat) :
    OutsideM (openObject path privileged byKernel addr) := by
  refine (aside_get (E := Event.isLookup)).outside.bind fun b => ?_
  refine (aside_vfsAccessOk _ _ _ _).outside.bind fun ok => .ite (outside_pure _) ?_
  refine (aside_statIsDir _ _).outside.bind fun isDir => .ite ?_ ?_
  · refine (outside_opendirAt _ _ _).bind fun o => ?_
    cases o <;> exact outside_pure _
  · refine (outside_openAt _ _ _ _).bind fun o => ?_
    cases o <;> exact outside_pure _

/-- The call goes past the special paths. -/
def opensByPath (privileged : Bool) (name : Name) : Prop := checkPath name = none ∨ privileged = true

instance (privileged : Bool) (name : Name) : Decidable (opensByPath privileged name) := by
  delta opensByPath; infer_instance

variable {s s' : State}

/-- `VFS_Open` of a path that is not special, in terms of what it opens. -/
theorem vfsOpen_eq {path : UInt64}
    (h : opensByPath privileged (s.base.str path)) :
    vfsOpen path privileged byKernel addr s =
      (openObject (s.base.str path) privileged byKernel addr s.base).bind fun r =>
        match r.1 with
        | .error e => some (intError e, { s with base := r.2 })
        | .ok o =>
            match firstFree s with
            | none => (discard o.obj r.2).map fun d => (intError .mFile, { s with base := d.2 })
            | some i => some (asInt i.val, ⟨r.2, Function.update s.openFiles i (fill (s.openFiles i) path
                privileged s.base.pid (deviceGet s.base (s.base.str path)) o)⟩) := by
  have hpath : vfsOpen path privileged byKernel addr s = openPath path privileged byKernel addr s := by
    simp only [vfsOpen, get_bind]
    rcases h with h | h
    · rw [h]
    · rw [h]
      cases checkPath (s.base.str path) <;> rfl
  rw [hpath, openPath, get_bind]
  simp only [bind_run, onBase]
  cases openObject (s.base.str path) privileged byKernel addr s.base with
  | none => rfl
  | some r =>
      obtain ⟨x, b⟩ := r
      cases x with
      | error e => rfl
      | ok o =>
          simp only [Option.bind_some]
          cases firstFree s with
          | some i => rfl
          | none =>
              simp only [bind_run, onBase]
              cases discard o.obj b <;> rfl

/-- The special paths are the console's descriptors. -/
theorem vfsOpen_special {path : UInt64}
    (h : ¬ opensByPath privileged (s.base.str path)) :
    vfsOpen path privileged byKernel addr s = some (asInt ((checkPath (s.base.str path)).getD 0), s) := by
  simp only [opensByPath, not_or, Bool.not_eq_true, ← Option.isSome_iff_ne_none] at h
  obtain ⟨i, hi⟩ := Option.isSome_iff_exists.mp h.1
  simp [vfsOpen, hi, h.2]

theorem slotOf_asInt : ∀ i : Fd, slotOf (asInt i.val) = some i := by decide

/-! ### Closing -/

/-- Nothing is said, and the caller and what paths mean to it stay: only file systems, the heap and
the sockets changed. -/
structure Unsaid (b b' : Base) : Prop where
  rootfs : b'.rootfs = b.rootfs
  mountTable : b'.mountTable = b.mountTable
  devices : b'.devices = b.devices
  strings : b'.strings = b.strings
  answers : b'.answers = b.answers
  log : b'.log = b.log
  caller : SameCaller b.proc b'.proc

namespace Unsaid

theorem refl (b : Base) : Unsaid b b := ⟨rfl, rfl, rfl, rfl, rfl, rfl, .refl _⟩

theorem trans {a b c : Base} (h₁ : Unsaid a b) (h₂ : Unsaid b c) : Unsaid a c :=
  ⟨h₂.rootfs.trans h₁.rootfs, h₂.mountTable.trans h₁.mountTable, h₂.devices.trans h₁.devices,
    h₂.strings.trans h₁.strings, h₂.answers.trans h₁.answers, h₂.log.trans h₁.log,
    h₁.caller.trans h₂.caller⟩

theorem str (h : Unsaid b b') (p : UInt64) : b'.str p = b.str p := by
  have hc := h.caller.cr3
  simp only [Base.proc] at hc
  simp only [Base.str, h.strings, hc]

end Unsaid

abbrev UnsaidM {α : Type} (m : BaseM α) : Prop := Keeps Unsaid m

section UnsaidRules

variable {α β : Type}

theorem unsaid_pure (a : α) : UnsaidM (pure a) := .pure Unsaid.refl a

theorem unsaid_get : UnsaidM (get : BaseM Base) := .get Unsaid.refl

theorem UnsaidM.bind {m : BaseM α} {f : α → BaseM β} (hm : UnsaidM m) (hf : ∀ a, UnsaidM (f a)) :
    UnsaidM (m >>= f) :=
  Keeps.bind Unsaid.trans hm hf

end UnsaidRules

theorem fileAt_some {a : Nat} {f : OpenFile} (h : fileAt a b = some (f, b')) :
    b.heap a = some (.file f) ∧ b' = b := by
  simp only [fileAt] at h
  split at h
  · next hf => cases h; exact ⟨hf, rfl⟩
  · cases h

theorem dirAt_some {a : Nat} {d : OpenDir} (h : dirAt a b = some (d, b')) :
    b.heap a = some (.dir d) ∧ b' = b := by
  simp only [dirAt] at h
  split at h
  · next hf => cases h; exact ⟨hf, rfl⟩
  · cases h

theorem unsaid_runFs {α : Type} (a : Nat) (m : Ext2M α) : UnsaidM (runFs a m) := by
  intro b r b' h
  obtain ⟨σ, σ', -, -, rfl⟩ := runFs_some h
  exact ⟨rfl, rfl, rfl, rfl, rfl, rfl, .refl _⟩

theorem unsaid_kfree (a : Nat) : UnsaidM (kfree a) := by
  intro b r b' h
  cases h
  exact ⟨rfl, rfl, rfl, rfl, rfl, rfl, .refl _⟩

theorem unsaid_closeAt (a : Nat) : UnsaidM (closeAt a) := by
  refine .bind (fun b f b' h => ?_) fun f => (unsaid_runFs _ _).bind fun _ => unsaid_kfree a
  rw [(fileAt_some h).2]
  exact .refl b

theorem unsaid_closedirAt (a : Nat) : UnsaidM (closedirAt a) := by
  refine .bind (fun b d b' h => ?_) fun d => (unsaid_runFs _ _).bind fun _ => unsaid_kfree a
  rw [(dirAt_some h).2]
  exact .refl b

theorem unsaid_destroy (id : Int32) : UnsaidM (onNet fun n => (unixSockDestroy n id, ())) := by
  intro b r b' h
  cases h
  exact ⟨rfl, rfl, rfl, rfl, rfl, rfl, sameCaller_unixSockDestroy b.net id⟩

theorem unsaid_closeHeld (x : VfsFile) : UnsaidM (closeHeld x) := by
  simp only [closeHeld]
  split
  · exact (unsaid_closedirAt _).bind fun _ => unsaid_pure _
  · exact (unsaid_closeAt _).bind fun _ => unsaid_pure _
  · exact unsaid_pure _

theorem unsaid_closeSlot (x : VfsFile) (privileged : Bool) : UnsaidM (closeSlot x privileged) := by
  refine unsaid_get.bind fun b => .ite (unsaid_pure _) (.ite (.ite (unsaid_pure _) ?_) ?_)
  · exact (unsaid_destroy _).bind fun _ => unsaid_pure _
  · refine .ite (unsaid_pure _) (.ite (unsaid_pure _) ?_)
    exact (unsaid_closeHeld x).bind fun _ => unsaid_pure _

/-- Why `VFS_Close` refuses a slot to a process. -/
def closeRefusal (x : VfsFile) (privileged : Bool) (pid : Int32) : Option Errno :=
  if x.present = false then some .badF
  else if privileged = true then none
  else if x.isSocket = false ∧ x.flags &&& flagKernel ≠ 0 then some .acces
  else if x.pid ≠ pid then some .acces
  else none

/-- What `VFS_Close` gives back of what a slot holds. -/
def release (x : VfsFile) : BaseM Unit :=
  if x.isSocket then onNet fun n => (unixSockDestroy n x.unixSockId, ())
  else
    match x.isDir, x.dirIter, x.file with
    | true, some iter, _ => closedirAt iter
    | _, _, some f => closeAt f
    | _, _, none => pure ()

/-- The slot `VFS_Close` leaves. -/
def VfsFile.closed (x : VfsFile) : VfsFile :=
  if x.isSocket then { x with present := false, isSocket := false }
  else
    match x.isDir, x.dirIter, x.file with
    | true, some _, _ => { x with present := false, isDir := false, dirIter := none }
    | _, _, _ => { x with present := false, isDir := false, file := none }

@[simp] theorem closed_present (x : VfsFile) : x.closed.present = false := by
  simp only [VfsFile.closed]
  split
  · rfl
  · split <;> rfl

/-- What a slot that is no socket holds. -/
theorem release_cases {x : VfsFile} (hs : x.isSocket = false) :
    (∃ a, x.isDir = true ∧ x.dirIter = some a ∧ release x = closedirAt a) ∨
      (∃ a, (x.isDir = false ∨ x.dirIter = none) ∧ x.file = some a ∧ release x = closeAt a) ∨
      ((x.isDir = false ∨ x.dirIter = none) ∧ x.file = none ∧ release x = pure ()) := by
  cases hd : x.isDir <;> cases hi : x.dirIter <;> cases hf : x.file <;>
    simp [release, hs, hd, hi, hf]

theorem closeHeld_eq {x : VfsFile} (hs : x.isSocket = false) (b : Base) :
    (closeHeld x >>= fun y => pure ((0 : Int32), { y with present := false, isDir := false })) b =
      (release x b).map fun r => ((0, x.closed), r.2) := by
  have hseq : ∀ (m : BaseM Unit) (y z : VfsFile), { y with present := false, isDir := false } = z →
      ((m >>= fun _ => pure y) >>= fun y =>
          pure ((0 : Int32), { y with present := false, isDir := false })) b =
        (m b).map fun r => ((0, z), r.2) := by
    rintro m y z rfl
    simp only [bind_run]
    cases m b <;> rfl
  simp only [closeHeld, release, VfsFile.closed, hs, Bool.false_eq_true, if_false]
  cases hd : x.isDir <;> cases hi : x.dirIter <;> cases hf : x.file <;>
    first
    | exact hseq _ _ _ rfl
    | simp [hf, hs, hi]

/-- `VFS_Close` through a slot is refused, or releases what the slot holds. -/
theorem closeSlot_eq (x : VfsFile) (privileged : Bool) (b : Base) :
    closeSlot x privileged b =
      match closeRefusal x privileged b.pid with
      | some e => some ((intError e, x), b)
      | none => (release x b).map fun r => ((0, x.closed), r.2) := by
  rw [closeSlot, get_bind]
  cases hp : x.present with
  | false => simp [closeRefusal, hp]
  | true =>
      cases hs : x.isSocket with
      | true =>
          simp only [closeRefusal, hp, hs, release, VfsFile.closed]
          cases privileged with
          | true => rfl
          | false =>
              by_cases hq : x.pid = b.pid
              · simp [hq]; rfl
              · simp [hq]
      | false =>
          have hheld := closeHeld_eq hs b
          cases privileged with
          | true =>
              simp only [closeRefusal, hp]
              exact hheld
          | false =>
              by_cases hk : x.flags &&& flagKernel = 0
              · by_cases hq : x.pid = b.pid
                · have hno : closeRefusal x false b.pid = none := by
                    simp [closeRefusal, hp, hs, hk, hq]
                  rw [hno, if_neg (by simp), if_neg (by simp), if_neg (by simp [hk]), if_neg (by simp [hq])]
                  exact hheld
                · simp [closeRefusal, hp, hs, hk, hq]
              · simp [closeRefusal, hp, hs, hk]

theorem onBase_some {α : Type} {m : BaseM α} {r : α}
    (h : onBase m s = some (r, s')) :
    m s.base = some (r, s'.base) ∧ s'.openFiles = s.openFiles := by
  simp only [onBase] at h
  split at h
  · cases h
  · next r' b hm => cases h; exact ⟨hm, rfl⟩

/-- `VFS_Close` changes its own slot, and nothing is said. -/
theorem vfsClose_some {fd : Int32} {r : Int32}
    (h : vfsClose fd privileged s = some (r, s')) :
    (slotOf fd = none ∧ s' = s) ∨
      ∃ i x, slotOf fd = some i ∧
        closeSlot (s.openFiles i) privileged s.base = some ((r, x), s'.base) ∧
        s'.openFiles = Function.update s.openFiles i x := by
  simp only [vfsClose] at h
  cases hf : slotOf fd with
  | none =>
      rw [hf] at h
      cases h
      exact .inl ⟨rfl, rfl⟩
  | some i =>
      rw [hf] at h
      simp only [get_bind] at h
      obtain ⟨⟨r', x⟩, s₁, h₁, h₂⟩ := bind_some.mp h
      obtain ⟨hb, ho⟩ := onBase_some h₁
      cases h₂
      exact .inr ⟨i, x, rfl, hb, by simp only [ho]⟩

theorem closeRefusal_present {x : VfsFile} {pid : Int32}
    (h : closeRefusal x privileged pid = none) : x.present = true := by
  cases hp : x.present with
  | true => rfl
  | false => simp [closeRefusal, hp] at h

/-- `VFS_Close` is refused and changes nothing, or it releases what the slot held. -/
theorem vfsClose_cases {fd : Int32} {r : Int32}
    (h : vfsClose fd privileged s = some (r, s')) :
    s' = s ∨ ∃ i, slotOf fd = some i ∧ closeRefusal (s.openFiles i) privileged s.base.pid = none ∧
      release (s.openFiles i) s.base = some ((), s'.base) ∧
      s'.openFiles = Function.update s.openFiles i (s.openFiles i).closed := by
  rcases vfsClose_some h with ⟨-, rfl⟩ | ⟨i, x, hi, hcl, ho⟩
  · exact .inl rfl
  · rw [closeSlot_eq] at hcl
    cases href : closeRefusal (s.openFiles i) privileged s.base.pid with
    | some e =>
        rw [href] at hcl
        simp only [Option.some.injEq, Prod.mk.injEq] at hcl
        obtain ⟨⟨-, rfl⟩, hb⟩ := hcl
        rw [Function.update_eq_self] at ho
        left
        cases s
        cases s'
        simp_all
    | none =>
        rw [href] at hcl
        obtain ⟨⟨u, b⟩, hr, he⟩ := Option.map_eq_some_iff.mp hcl
        simp only [Prod.mk.injEq] at he
        obtain ⟨⟨-, rfl⟩, rfl⟩ := he
        exact .inr ⟨i, hi, href, hr, ho⟩

/-! ### Copying a slot -/

/-- `sys_dup` fails, or it puts a copy of a slot in use into the first free one. -/
theorem sysDup_cases {fd r : UInt64}
    (h : sysDup fd addr s = some (r, s')) :
    (s' = s ∧ (firstFree s = none ∨ ∀ j, slot64 fd = some j → (s.openFiles j).present = false)) ∨
      ∃ j i y, slot64 fd = some j ∧ (s.openFiles j).present = true ∧ firstFree s = some i ∧
        copySlot (s.openFiles j) addr s.base = some (y, s'.base) ∧
        s'.openFiles = Function.update s.openFiles i y := by
  simp only [sysDup] at h
  cases hj : slot64 fd with
  | none =>
      rw [hj] at h
      cases h
      exact .inl ⟨rfl, .inr (by simp)⟩
  | some j =>
      rw [hj] at h
      simp only [get_bind] at h
      cases hp : (s.openFiles j).present with
      | false =>
          rw [hp] at h
          cases h
          exact .inl ⟨rfl, .inr fun k hk => by cases hk; exact hp⟩
      | true =>
          simp only [hp, Bool.not_true, Bool.false_eq_true, if_false] at h
          cases hi : firstFree s with
          | none =>
              rw [hi] at h
              cases h
              exact .inl ⟨rfl, .inl rfl⟩
          | some i =>
              rw [hi] at h
              obtain ⟨y, s₁, h₁, h₂⟩ := bind_some.mp h
              obtain ⟨hb, ho⟩ := onBase_some h₁
              cases h₂
              exact .inr ⟨j, i, y, rfl, hp, rfl, hb, by simp only [ho]⟩

/-- `sys_dup2` closes its target when that is in use, whether or not the close is refused, and puts
the copy there. -/
structure Dup2 (j i : Fd) (addr : Option Nat) (s s₁ s' : State) (y : VfsFile) : Prop where
  ne : j ≠ i
  source : (s.openFiles j).present = true
  target : ((s.openFiles i).present = false ∧ s₁ = s) ∨
    ((s.openFiles i).present = true ∧ ∃ r, vfsClose (asInt i.val) false s = some (r, s₁))
  kept : s₁.openFiles j = s.openFiles j
  copy : copySlot (s.openFiles j) addr s₁.base = some (y, s'.base)
  table : s'.openFiles = Function.update s₁.openFiles i y

theorem sysDup2_cases {oldfd newfd r : UInt64}
    (h : sysDup2 oldfd newfd addr s = some (r, s')) :
    (s' = s ∧ (slot64 newfd = none ∨ slot64 oldfd = slot64 newfd ∨
        ∀ j, slot64 oldfd = some j → (s.openFiles j).present = false)) ∨
      ∃ j i s₁ y, slot64 oldfd = some j ∧ slot64 newfd = some i ∧ Dup2 j i addr s s₁ s' y := by
  simp only [sysDup2] at h
  cases hj : slot64 oldfd with
  | none =>
      rw [hj] at h
      cases h
      exact .inl ⟨rfl, .inr (.inr (by simp))⟩
  | some j =>
      cases hi : slot64 newfd with
      | none =>
          rw [hj, hi] at h
          cases h
          exact .inl ⟨rfl, .inl rfl⟩
      | some i =>
          rw [hj, hi] at h
          simp only [get_bind] at h
          cases hp : (s.openFiles j).present with
          | false =>
              rw [hp] at h
              cases h
              exact .inl ⟨rfl, .inr (.inr fun k hk => by cases hk; exact hp)⟩
          | true =>
              simp only [hp, Bool.not_true, Bool.false_eq_true, if_false] at h
              by_cases hji : j = i
              · rw [if_pos hji] at h
                cases h
                exact .inl ⟨rfl, .inr (.inl (by rw [hji]))⟩
              · rw [if_neg hji] at h
                cases ht : (s.openFiles i).present with
                | true =>
                    simp only [ht, if_true] at h
                    obtain ⟨q, s₁, hc, h₂⟩ := bind_some.mp h
                    rw [get_bind] at h₂
                    obtain ⟨y, s₃, h₃, h₄⟩ := bind_some.mp h₂
                    obtain ⟨hb, ho⟩ := onBase_some h₃
                    cases h₄
                    have hkept : s₁.openFiles j = s.openFiles j := by
                      rcases vfsClose_some hc with ⟨hno, -⟩ | ⟨k, x, hk, -, hof⟩
                      · rw [slotOf_asInt] at hno
                        cases hno
                      · rw [slotOf_asInt] at hk
                        cases hk
                        rw [hof, Function.update_of_ne hji]
                    rw [hkept] at hb
                    exact .inr ⟨j, i, s₁, y, rfl, rfl, hji, hp, .inr ⟨ht, q, hc⟩, hkept, hb,
                      by simp only [ho]⟩
                | false =>
                    simp only [ht, Bool.false_eq_true, if_false, get_bind] at h
                    obtain ⟨y, s₃, h₃, h₄⟩ := bind_some.mp h
                    obtain ⟨hb, ho⟩ := onBase_some h₃
                    cases h₄
                    exact .inr ⟨j, i, s, y, rfl, rfl, hji, hp, .inl ⟨ht, rfl⟩, rfl, hb, by simp only [ho]⟩

end Blackmount.Vfs
