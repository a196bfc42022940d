import Blackmount.Vfs.System

/-!
# Vfs — who reads a file

Processes without root's rights open, read, duplicate, seek and close.  The log keeps, with every
transfer, the uid it was made for and for whom the file could have been opened to read.

* `reads_authorized`: in a run in which no process opens for writing, every caller of `sys_open` is a
  known user, and nobody duplicates a descriptor whose path he may not read, every byte a process
  reads is of a file it could have opened, or of one the kernel opened.
* `opening_to_write_reads`: without that, an open for writing hands out a file nobody may read.
-/

namespace Blackmount.Vfs
open Blackmount.Lib Blackmount.Ext2 Blackmount.User Blackmount.Proc Blackmount.Net

/-! ### The property -/

/-- Bytes of a file went only to a user for whom `ext2_access` would have succeeded when the file was
opened, or through a descriptor the kernel had opened. -/
def Event.readOk : Event → Bool
  | .read uid f data => data.isEmpty || f.byKernel || f.readers uid
  | _ => true

/-- The caller is not root. -/
def NonRootCaller (b : Base) : Prop := userIsRoot b.users b.owner = false

/-- The call is made by a process that is not root's. -/
def NonRoot (s : State) : Op → Prop
  | .call c _ => NonRootCaller (s.base.runAs c)
  | _ => True

/-- `vfs_caller_uid` does not fall back on root. -/
def KnownCaller (b : Base) : Prop := 0 ≤ b.pid ∧ userExists b.users b.owner = true

/-- The caller may read what the slot's path names now on the root file system. -/
def ReadableAgain (b : Base) (x : VfsFile) : Prop :=
  b.pid ≠ -1 ∧ ∀ p ∈ x.path, accessible b b.rootfs (b.str p) accessRead b.owner = true

/-- The state in which `sys_dup2` opens its source's path: after its close of the target. -/
def closedFirst (s : State) (i : Fd) : Option State :=
  if (s.openFiles i).present then (vfsClose (asInt i.val) false s).map Prod.snd else some s

/-- The condition on a call: an open is for reading only, and by a known user; a duplicate is made of
what the caller may read. -/
def ReadSafeCall (s : State) : Call → Prop
  | .open _ flags _ _ => opensPrivileged flags = false ∧ KnownCaller s.base
  | .dup fd _ => ∀ j ∈ slot64 fd, (s.openFiles j).present = true →
      ReadableAgain s.base (s.openFiles j)
  | .dup2 oldfd newfd _ => ∀ j ∈ slot64 oldfd, ∀ i ∈ slot64 newfd, (s.openFiles j).present = true →
      ∀ s₁ ∈ closedFirst s i, ReadableAgain s₁.base (s.openFiles j)
  | _ => True

def ReadSafe (s : State) : Op → Prop
  | .call c call => ReadSafeCall (s.runAs c) call
  | _ => True

instance (b : Base) : Decidable (NonRootCaller b) := by delta NonRootCaller; infer_instance

instance (s : State) (o : Op) : Decidable (NonRoot s o) := by
  apply Op.casesOn (motive := fun o => Decidable (NonRoot s o)) o <;> intros <;>
    (delta NonRoot; infer_instance)

instance (b : Base) : Decidable (KnownCaller b) := by delta KnownCaller; infer_instance

instance (b : Base) (x : VfsFile) : Decidable (ReadableAgain b x) :=
  have : Decidable (∀ p ∈ x.path, accessible b b.rootfs (b.str p) accessRead b.owner = true) :=
    Option.decidableForallMem _
  inferInstanceAs (Decidable (_ ∧ _))

instance (s : State) (call : Call) : Decidable (ReadSafeCall s call) := by
  apply Call.casesOn (motive := fun call => Decidable (ReadSafeCall s call)) call <;> intros <;>
    (delta ReadSafeCall; infer_instance)

instance (s : State) (o : Op) : Decidable (ReadSafe s o) := by
  apply Op.casesOn (motive := fun o => Decidable (ReadSafe s o)) o <;> intros <;>
    (delta ReadSafe; infer_instance)

/-! ### The invariant -/

/-- The file may be read by the process with the pid, or the kernel opened it. -/
def MayRead (k : Kernel) (pid : Int32) (f : OpenFile) : Prop :=
  f.byKernel = true ∨ (pid ≠ -1 ∧ f.readers (procGetOwner k pid) = true)

theorem grants_mayRead (k : Kernel) : Grants (MayRead k) := fun _ _ _ h => h

structure Confidential (k : Kernel) (s : State) : Prop where
  table : s.base.proc.procTable = k.procTable
  users : s.base.users = k.users
  held : Held (MayRead k) s
  log : ∀ e ∈ s.base.log, e.readOk = true

section Invariant

variable {k : Kernel} {s s' : State}

theorem Confidential.owner (h : Confidential k s) : s.base.owner = procGetOwner k s.base.pid := by
  have hfind : ∀ pid, procFindIndex s.base.proc pid = procFindIndex k pid :=
    procFindIndex_congr fun i => by rw [h.table]
  simp only [Base.owner, procGetOwner, hfind, h.table]

/-- What a call that leaves the processes alone has to show. -/
theorem Confidential.next (h : Confidential k s) (hout : SameOutside s.base s'.base)
    (hheld : Held (MayRead k) s') (hlog : Logs (fun e => e.readOk = true) s.base s'.base) :
    Confidential k s' := by
  have hnet := hout.net
  refine ⟨?_, ?_, hheld, fun e he => ?_⟩
  · rw [Base.proc, hnet]; exact h.table
  · rw [Base.users, hnet]; exact h.users
  · obtain ⟨es, e', hes⟩ := hlog.log
    rw [e', List.mem_append] at he
    rcases he with he | he
    · exact h.log e he
    · exact hes e he

theorem Event.readOk_of_isLookup {e : Event} (h : e.isLookup) : e.readOk = true := by
  cases e with
  | lookup => rfl
  | read => cases h
  | write => cases h
  | device => cases h

theorem Event.readOk_of_isDevice {e : Event} (h : e.isDevice) : e.readOk = true := by
  cases e with
  | device => rfl
  | read => cases h
  | write => cases h
  | lookup => cases h

/-- A call that only looks paths up. -/
theorem Confidential.aside (h : Confidential k s) (ho : s'.openFiles = s.openFiles)
    (ha : Aside Event.isLookup s.base s'.base) : Confidential k s' :=
  h.next ⟨ha.rootfs, ha.net, ha.mountTable, ha.devices, ha.strings⟩ (h.held.congr ho ha.heap)
    (ha.toLogs.mono fun _ => Event.readOk_of_isLookup)

/-- A call that only uses a device. -/
theorem Confidential.idle (h : Confidential k s) (ho : s'.openFiles = s.openFiles)
    (hi : Idle s.base s'.base) : Confidential k s' := by
  refine h.next hi.toSameOutside (h.held.congr ho hi.heap) ?_
  obtain ⟨es, e, hes⟩ := hi.log
  exact ⟨hi.rootfs, es, e, fun x hx => Event.readOk_of_isDevice (hes x hx)⟩

/-- A call that moves a handle and says nothing. -/
theorem Confidential.mild {A : Nat → Prop} (h : Confidential k s) (ho : s'.openFiles = s.openFiles)
    (hm : Mild A s.base s'.base) (hl : s'.base.log = s.base.log) : Confidential k s' :=
  h.next hm.toSameOutside (h.held.mild (grants_mayRead k) hm ho)
    ⟨hm.rootfs, [], by simp [hl], by simp⟩

/-! ### What each call keeps -/

theorem Confidential.vfsRead {fd : Int32} {count : Nat} {frame : Registers}
    {r : Option Int32 × List UInt8} (h : Confidential k s)
    (hr : Vfs.vfsRead fd count frame s = some (r, s')) : Confidential k s' := by
  obtain ⟨ho, hidle | ⟨i, a, f, f', -, hp, hpid, ha, ht⟩⟩ := vfsRead_some h.held.plain hr
  · exact h.idle ho hidle
  · refine h.next ht.toSameOutside (h.held.mild (grants_mayRead k) ht.mild ho) ⟨ht.rootfs, _, ht.log, ?_⟩
    obtain ⟨f₀, hf₀, hmay⟩ := h.held.file hp ha
    rw [ht.was] at hf₀
    cases hf₀
    intro e he
    rw [List.mem_singleton.mp he]
    rcases hmay with hk | ⟨hne, hread⟩
    · simp [Event.readOk, hk]
    · -- the slot is not the kernel's, so it is the caller's own
      have hown : (s.openFiles i).pid = s.base.pid := hpid.resolve_left hne
      rw [hown, ← h.owner] at hread
      simp [Event.readOk, hread]

theorem Confidential.vfsWrite {fd : Int32} {data : List UInt8} {privileged : Bool} {frame : Registers}
    {r : Option Int32} (h : Confidential k s)
    (hr : Vfs.vfsWrite fd data privileged frame s = some (r, s')) : Confidential k s' := by
  obtain ⟨ho, haside | ⟨i, b₁, -, hcheck, hrest⟩⟩ := vfsWrite_some h.held.plain hr
  · exact h.aside ho haside
  · have h₁ : Confidential k { s with base := b₁ } := h.aside rfl hcheck.toAside
    rcases hrest with hidle | ⟨a, f, f', -, ht, -⟩
    · exact h₁.idle ho hidle
    · refine h₁.next ht.toSameOutside (h₁.held.mild (grants_mayRead k) ht.mild ho)
        ⟨ht.rootfs, _, ht.log, ?_⟩
      intro e he
      rw [List.mem_singleton.mp he]
      rfl

theorem Confidential.vfsClose {fd : Int32} {privileged : Bool} {r : Int32} (h : Confidential k s)
    (hc : Vfs.vfsClose fd privileged s = some (r, s')) : Confidential k s' := by
  rcases vfsClose_cases hc with rfl | ⟨i, -, href, hr, ho⟩
  · exact h
  · have hp := closeRefusal_present href
    have hout := outside_release (h.held.plain i hp) _ _ _ hr
    refine h.next hout (h.held.lose ho hp hr) ⟨hout.rootfs, [], ?_, by simp⟩
    rcases vfsClose_some hc with ⟨-, rfl⟩ | ⟨j, x, -, hcl, -⟩
    · simp
    · simpa using (unsaid_closeSlot _ _ _ _ _ hcl).log

/-- A file is opened without privilege by a known user: he may read it. -/
theorem mayRead_opened (h : Confidential k s) (hroot : NonRootCaller s.base) (hcaller : KnownCaller s.base)
    {path : Name} {f : OpenFile} (hmay : MayOpen path false s.base)
    (hf : f.readers = (openGrant s.base path false).readers) : MayRead k s.base.pid f := by
  obtain ⟨hpid, hexists⟩ := hcaller
  have huid : vfsCallerUid s.base = s.base.owner := by
    have hlt : ¬ s.base.pid < 0 := Int32.not_lt.mpr hpid
    simp [vfsCallerUid, hlt, hexists]
  refine .inr ⟨fun e => ?_, ?_⟩
  · rw [e] at hpid
    exact absurd hpid (by decide)
  · rcases hmay with hp | hr | ha
    · cases hp
    · rw [huid, hroot] at hr
      cases hr
    · rw [hf, ← h.owner, ← huid]
      exact ha

theorem Confidential.vfsOpen {path : UInt64} {addr : Option Nat} {r : Int32} (h : Confidential k s)
    (hroot : NonRootCaller s.base) (hcaller : KnownCaller s.base)
    (hopen : Vfs.vfsOpen path false false addr s = some (r, s')) : Confidential k s' := by
  obtain ⟨hout, hlog, -⟩ := vfsOpen_cases hopen
  refine h.next hout (held_vfsOpen h.held hopen fun f hmay hf _ _ => ?_)
    (hlog.mono fun _ => Event.readOk_of_isLookup)
  exact mayRead_opened h hroot hcaller hmay hf

theorem Confidential.kernelOpen {path : UInt64} {addr : Option Nat} {r : Int32}
    (h : Confidential k s) (hopen : Vfs.vfsOpen path true true addr s = some (r, s')) :
    Confidential k s' := by
  obtain ⟨hout, hlog, -⟩ := vfsOpen_cases hopen
  exact h.next hout (held_vfsOpen h.held hopen fun f _ _ _ hk => .inl hk)
    (hlog.mono fun _ => Event.readOk_of_isLookup)

theorem Confidential.copy {i j : Fd} {y : VfsFile} {addr : Option Nat} (h : Confidential k s)
    (hj : (s.openFiles j).present = true) (hread : ReadableAgain s.base (s.openFiles j))
    (hcopy : copySlot (s.openFiles j) addr s.base = some (y, s'.base))
    (ho : s'.openFiles = Function.update s.openFiles i y) : Confidential k s' := by
  refine h.next (copySlot_some hcopy).1 (held_copy h.held hj hcopy ho fun p f hp hf _ => ?_) ?_
  · refine .inr ⟨hread.1, ?_⟩
    rw [hf, ← h.owner]
    exact hread.2 p hp
  · have hlog : LogsM Event.isLookup (copySlot (s.openFiles j) addr) := by
      refine logs_get.bind fun b => ?_
      cases (s.openFiles j).path with
      | none => exact logs_pure _
      | some p => exact ((logs_openAt _ _ _ _).mono fun _ he => he.isLookup).bind fun _ => logs_pure _
    exact (hlog _ _ _ hcopy).mono fun _ => Event.readOk_of_isLookup

/-- **A call that meets the condition keeps the invariant.** -/
theorem Confidential.perform {call : Call} (h : Confidential k s) (hroot : NonRootCaller s.base)
    (hsafe : ReadSafeCall s call) {u : Unit} (hp : call.perform s = some (u, s')) :
    Confidential k s' := by
  cases call <;> (obtain ⟨r, s₁, h₁, h₂⟩ := bind_some.mp hp; cases h₂)
  case «open» path flags addr stack =>
      obtain ⟨hflags, hcaller⟩ := hsafe
      obtain ⟨s₀, ho, ha, rfl | ⟨fd, hopen⟩⟩ := sysOpen_some h₁
      · exact h.aside ho ha
      · rw [hflags] at hopen
        have howner : s₀.base.owner = s.base.owner := by
          rw [(h.aside ho ha).owner, h.owner, ha.pid]
        have husers : s₀.base.users = s.base.users := by rw [(h.aside ho ha).users, h.users]
        refine (h.aside ho ha).vfsOpen ?_ ⟨by rw [ha.pid]; exact hcaller.1, ?_⟩ hopen
        · rw [NonRootCaller, howner, husers]
          exact hroot
        · rw [howner, husers]
          exact hcaller.2
  case close fd =>
      obtain ⟨q, s₂, h₃, h₄⟩ := bind_some.mp h₁
      have hs : s' = s₂ := by split at h₄ <;> (cases h₄; rfl)
      rw [hs]
      exact h.vfsClose h₃
  case lseek fd offset =>
      simp only [sysLseek] at h₁
      cases hi : slot64 fd with
      | none =>
          rw [hi] at h₁
          cases h₁
          exact h
      | some i =>
          rw [hi] at h₁
          obtain ⟨q, s₂, h₃, h₄⟩ := bind_some.mp h₁
          have hs : s' = s₂ := by split at h₄ <;> (cases h₄; rfl)
          rw [hs]
          obtain ⟨ho, hl, hb | ⟨j, a, -, -, -, -, hm⟩⟩ := vfsSetPos_some h₃
          · exact h.mild (A := fun _ => False) ho (by rw [hb]; exact .refl _) hl
          · exact h.mild ho hm hl
  case read fd count frame =>
      obtain ⟨q, s₂, h₃, h₄⟩ := bind_some.mp h₁
      cases h₄
      exact h.vfsRead h₃
  case readv fd iov vs frame =>
      exact keeps_sysReadv (R := fun s s' => Confidential k s → Confidential k s')
        (fun _ h => h) (fun h h' hc => h' (h hc)) (fun _ _ _ _ hr h => h.vfsRead hr) iov vs s r s' h₁ h
  case write fd data frame =>
      obtain ⟨q, s₂, h₃, h₄⟩ := bind_some.mp h₁
      cases h₄
      exact h.vfsWrite h₃
  case writev fd iov copied frame =>
      exact keeps_sysWritev (R := fun s s' => Confidential k s → Confidential k s')
        (fun _ h => h) (fun h h' hc => h' (h hc)) (fun _ _ _ _ hw h => h.vfsWrite hw) iov copied s r s' h₁ h
  case getdents64 fd buf size =>
      simp only [sysGetdents64] at h₁
      split at h₁
      · cases h₁; exact h
      · obtain ⟨q, s₂, h₃, h₄⟩ := bind_some.mp h₁
        have hs : s' = s₂ := by split at h₄ <;> (cases h₄; rfl)
        rw [hs]
        obtain ⟨ho, hl, hb | ⟨j, a, -, -, -, -, -, hm⟩⟩ := vfsGetDents64_some h₃
        · exact h.mild (A := fun _ => False) ho (by rw [hb]; exact .refl _) hl
        · exact h.mild ho hm hl
  case dup fd addr =>
      rcases sysDup_cases h₁ with ⟨rfl, -⟩ | ⟨j, i, y, hj, hpj, -, hcopy, ho⟩
      · exact h
      · exact h.copy hpj (hsafe j hj hpj) hcopy ho
  case dup2 oldfd newfd addr =>
      rcases sysDup2_cases h₁ with ⟨rfl, -⟩ | ⟨j, i, s₂, y, hj, hi, hdup⟩
      · exact h
      · have hs₂ : s₂ ∈ closedFirst s i ∧ Confidential k s₂ := by
          rcases hdup.target with ⟨ht, rfl⟩ | ⟨ht, q, hc⟩
          · exact ⟨by simp [closedFirst, ht], h⟩
          · exact ⟨by simp [closedFirst, ht, hc], h.vfsClose hc⟩
        have hread := hsafe j hj i hi hdup.source s₂ hs₂.1
        have hkept := hdup.kept
        refine hs₂.2.copy (j := j) (by rw [hkept]; exact hdup.source) (by rw [hkept]; exact hread)
          (by rw [hkept]; exact hdup.copy) hdup.table
  case fstat fd statbuf =>
      exact h.aside (sysFstat_some h₁).1 (sysFstat_some h₁).2
  case fchmod fd mode =>
      exact h.aside (sysFchmod_some h₁).1 (sysFchmod_some h₁).2
  case fchown fd uid gid =>
      exact h.aside (sysFchown_some h₁).1 (sysFchown_some h₁).2

theorem Confidential.runAs (h : Confidential k s) (c : Slot) : Confidential k (s.runAs c) :=
  ⟨h.table, h.users, h.held.congr rfl rfl, h.log⟩

/-- **A step that meets the condition keeps the invariant.** -/
theorem Confidential.step {o : Op} (h : Confidential k s) (hroot : NonRoot s o) (hsafe : ReadSafe s o)
    (hs : Vfs.step s o = some s') : Confidential k s' := by
  cases o with
  | call c call =>
      obtain ⟨⟨u, s₁⟩, hp, rfl⟩ := Option.map_eq_some_iff.mp hs
      exact (h.runAs c).perform hroot hsafe hp
  | kernelOpen path addr =>
      obtain ⟨⟨r, s₁⟩, hp, rfl⟩ := Option.map_eq_some_iff.mp hs
      exact h.kernelOpen hp
  | setWriteAll i =>
      cases hs
      exact ⟨h.table, h.users, h.held.relabel rfl rfl ⟨rfl, rfl, rfl, rfl⟩, h.log⟩
  | memory strings =>
      cases hs
      exact ⟨h.table, h.users, h.held.congr rfl rfl, h.log⟩

end Invariant

/-- **File confidentiality.**  From an empty table, in every run of processes that are not root's and
whose calls meet the condition: whatever was read from a file went to a user who could have opened it
to read, or came through a descriptor the kernel had opened. -/
theorem reads_authorized {s s' : State} {os : List Op} (hfresh : Fresh s)
    (hroot : Meets step NonRoot s os) (hsafe : Meets step ReadSafe s os)
    (hrun : run step s os = some s') : ∀ e ∈ s'.base.log, e.readOk = true := by
  have hinit : Confidential s.base.proc s :=
    ⟨rfl, rfl, hfresh.held, by rw [hfresh.log]; simp⟩
  have hend : Confidential s.base.proc s' :=
    run_inv (fun _ _ _ hI hC hs => hI.step hC.1 hC.2 hs) hinit (hroot.and hsafe) hrun
  exact hend.log

/-- User 1 reads `/a`, duplicates the descriptor and reads through the copy; user 2 is refused `/b`, and
reads `/a` with `readv`. -/
def Tiny.readRun : List Op :=
  let one : List Slot := ((List.finRange maxProcesses)[1]?).toList
  let two : List Slot := ((List.finRange maxProcesses)[2]?).toList
  one.flatMap (fun c => [.call c (.open 2 0 (some 0) []), .call c (.read 0 3 {}), .call c (.dup 0 (some 1)),
    .call c (.lseek 1 1), .call c (.read 1 3 {}), .call c (.close 0)]) ++
  two.flatMap fun c => [.call c (.open 3 0 (some 0) []), .call c (.open 2 0 (some 0) []),
    .call c (.readv 0 1 [⟨1, 2⟩, ⟨1, 2⟩] {})]

theorem reads_authorized_readRun : ∃ s', run step Tiny.files Tiny.readRun = some s' ∧
    ∀ e ∈ s'.base.log, e.readOk = true := by
  have hdone : (run step Tiny.files Tiny.readRun).isSome := by decide +kernel
  obtain ⟨s', hs'⟩ := Option.isSome_iff_exists.mp hdone
  exact ⟨s', hs', reads_authorized ⟨fun _ => rfl, rfl⟩ (by decide +kernel) (by decide +kernel) hs'⟩

/-- A process of user 1 opens `/b` for reading and writing, and reads it. -/
def Tiny.leakRun : List Op :=
  ((List.finRange maxProcesses)[1]?).toList.flatMap fun c =>
    [.call c (.open 3 oRdwr (some 0) []), .call c (.read 0 3 {})]

/-- A file that only root may read is read by anyone who opens it for writing. -/
theorem opening_to_write_reads : ∃ s os s', Fresh s ∧ Meets step NonRoot s os ∧
    run step s os = some s' ∧ ∃ e ∈ s'.base.log, e.readOk = false := by
  have hdone : (run step Tiny.files Tiny.leakRun).map
      (fun s' => s'.base.log.any fun e => !e.readOk) = some true := by decide +kernel
  obtain ⟨s', hs', hany⟩ := Option.map_eq_some_iff.mp hdone
  obtain ⟨e, he, hbad⟩ := List.any_eq_true.mp hany
  exact ⟨Tiny.files, Tiny.leakRun, s', ⟨fun _ => rfl, rfl⟩, by decide +kernel, hs', e, he,
    by simpa using hbad⟩

end Blackmount.Vfs
