import Blackmount.Proc.Cred
import Blackmount.Proc.Moves
import Blackmount.Vfs.Table

/-!
# Proc — launching programs

`sys_execve` and `load_bin`: a program becomes a process of root's, and `sys_execve` then writes the caller's uid over
its owner.

* `launches_keep_identity`: a process and its descendants launch, fork and change their identities.  When only callers
  that have root's effective and saved identities launch, a process that is launched has its caller's identities, and
  without a root identity at first nobody gets one.
* `launched_as_root`: otherwise a program of anybody runs as root.
-/

namespace Blackmount.Proc
open Blackmount.Lib Blackmount.User
open Blackmount.Vfs (procGetOwner uidRoot)

def eacces : Nat := 13

/-! ### The launchers -/

/-- An executable, as a launch finds it. -/
structure Program where
  /-- What `ext2_access` answers for `ACCESS_EXEC`, by uid. -/
  mayExec : Int32 → Bool
  /-- What `elf_open_and_load` makes of it, without the priority and the parent; `none` when it fails. -/
  image : Option ImageArgs
  /-- What the memory allocators answer while the process is made. -/
  map : MapAnswers

/-- `proc_set_owner`. -/
def procSetOwner (k : Kernel) (pid newOwner : Int32) : Kernel × Int32 :=
  if userExists k.users newOwner = false then (k, -1)
  else
    match procFindIndex k pid.toUInt32 with
    | none => (k, -1)
    | some i => (k.modify i fun p => { p with owner := newOwner }, 0)

/-- `bin_load_elf`. -/
def binLoadElf (k : Kernel) (file : Program) (priority parent : UInt32) : Kernel × Int32 :=
  match file.image with
  | none => (k, -1)
  | some a => procCreateUserImage k { a with priority := priority, parent := parent } file.map

/-- `bin_load_elf_argv`. -/
def binLoadElfArgv (k : Kernel) (file : Program) (priority parent : UInt32) : Kernel × Int32 :=
  match file.image with
  | none => (k, -1)
  | some a => procCreateUserImageArgv k { a with priority := priority, parent := parent } file.map

def sysExecve (k : Kernel) (file : Program) : Kernel × UInt64 :=
  let callerUid := procGetOwner k (procGetCurrentPid k)
  if userExists k.users callerUid = false then (k, serror eperm)
  else if userIsRoot k.users callerUid = false ∧ file.mayExec callerUid = false then (k, serror eacces)
  else
    let r := binLoadElfArgv k file 1 (procGetCurrentPid k).toUInt32
    (if r.2 > 0 then (procSetOwner r.1 r.2 callerUid).1 else r.1, r.2.toInt64.toUInt64)

/-- `load_bin`, system call 301. -/
def loadBin (k : Kernel) (file : Program) (priority : UInt64) : Kernel × UInt64 :=
  let r := binLoadElf k file priority.toUInt32 (procGetCurrentPid k).toUInt32
  (r.1, r.2.toInt64.toUInt64)

/-! ### A process and its descendants -/

inductive LaunchOp where
  /-- Another of the processes runs. -/
  | schedule (j : Slot)
  | cred (o : CredOp)
  | fork (frame : Registers) (page : Option Nat) (cloned : Bool)
  | vfork (frame : Registers)
  | clone (frame : Registers) (flags childStack : UInt64) (page : Option Nat) (cloned : Bool)
  | execve (file : Program)
  | loadBin (file : Program) (priority : UInt64)

/-- What an operation does to the processes. -/
def launchKernel (k : Kernel) : LaunchOp → Kernel
  | .schedule j => { k with currentProc := some j }
  | .cred o => credStep k o
  | .fork frame page cloned => (procFork k frame page cloned).1
  | .vfork frame => (procVfork k frame).1
  | .clone frame flags childStack page cloned => (procClone k frame flags childStack page cloned).1
  | .execve file => (sysExecve k file).1
  | .loadBin file priority => (loadBin k file priority).1

/-- The processes, and which of them descend from the first. -/
structure Family where
  kernel : Kernel
  member : Slot → Bool

/-- In slot `j` is a process that was not there. -/
def Born (k k' : Kernel) (j : Slot) : Prop := (k.procTable j).state = .unused ∧ (k'.procTable j).state ≠ .unused

instance (k k' : Kernel) (j : Slot) : Decidable (Born k k' j) := inferInstanceAs (Decidable (_ ∧ _))

/-- The members, and the processes that were not there. -/
def Family.grow (s : Family) (k' : Kernel) : Family :=
  { kernel := k', member := fun j => s.member j || decide (Born s.kernel k' j) }

/-- The members act, one at a time, and what they make is a member. -/
def launchStep (s : Family) (o : LaunchOp) : Option Family :=
  match o with
  | .schedule j => if s.member j then some (s.grow (launchKernel s.kernel o)) else none
  | o => some (s.grow (launchKernel s.kernel o))

/-! ### The property and the condition -/

/-- The caller may execute the program, and a process that was made of it has the caller's identities. -/
def AsCaller (k : Kernel) (file : Program) (k' : Kernel) : Prop :=
  ∀ i ∈ k.currentProc, ∀ j, Born k k' j →
    (file.mayExec (k.procTable i).owner = true ∨ userIsRoot k.users (k.procTable i).owner = true) ∧
    (k'.procTable j).uids = (k.procTable i).uids ∧ (k'.procTable j).gids = (k.procTable i).gids

/-- What a launch is to do. -/
def LaunchesAsCaller (s : Family) (s' : Family) : LaunchOp → Prop
  | .execve file | .loadBin file _ => AsCaller s.kernel file s'.kernel
  | _ => True

/-- No member's effective uid is root. -/
def NoRootMember (s : Family) : Prop :=
  ∀ j, s.member j = true → userIsRoot s.kernel.users (s.kernel.procTable j).euid = false

/-- The groups of a process that is made for `owner`. -/
def gidsOf (users : UserDb) (owner : Int32) : Ids := ⟨userGetGid users owner, userGetGid users owner, userGetGid users owner⟩

/-- The process has root's identities but for its owner. -/
def EffectivelyRoot (k : Kernel) (i : Slot) : Prop :=
  (k.procTable i).euid = uidRoot ∧ (k.procTable i).savedUid = uidRoot ∧ (k.procTable i).gids = gidsOf k.users uidRoot

/-- The next PID is positive as an `int`, and nobody's. -/
def NextPidFree (k : Kernel) : Prop := 0 < k.nextPid.toInt32 ∧ ∀ j, (k.procTable j).pid ≠ k.nextPid

/-- Only effective root launches; for `sys_execve` PIDs name one process, and by `load_bin` only root, or who may
execute the program, launches. -/
def Lawful (s : Family) : LaunchOp → Prop
  | .execve _ => ∀ i ∈ s.kernel.currentProc, EffectivelyRoot s.kernel i ∧ NextPidFree s.kernel ∧
      procFindIndex s.kernel (s.kernel.procTable i).pid = some i
  | .loadBin file _ => ∀ i ∈ s.kernel.currentProc, EffectivelyRoot s.kernel i ∧
      (s.kernel.procTable i).owner = uidRoot ∧ (file.mayExec uidRoot = true ∨ userIsRoot s.kernel.users uidRoot = true)
  | _ => True

instance (k : Kernel) (i : Slot) : Decidable (EffectivelyRoot k i) := by
  delta EffectivelyRoot; infer_instance

instance (k : Kernel) : Decidable (NextPidFree k) := by
  delta NextPidFree; infer_instance

instance (s : Family) (o : LaunchOp) : Decidable (Lawful s o) := by
  apply LaunchOp.casesOn (motive := fun o => Decidable (Lawful s o)) o <;> intros <;> (delta Lawful; infer_instance)

/-! ### What an operation makes -/

/-- The identities are the same, and whether there is a process. -/
structure SameIds (p p' : Pcb) : Prop where
  uids : p'.uids = p.uids
  gids : p'.gids = p.gids
  unused : p'.state = .unused ↔ p.state = .unused

theorem SameIds.refl (p : Pcb) : SameIds p p := ⟨rfl, rfl, .rfl⟩

theorem SameIds.trans {p p' p'' : Pcb} (h : SameIds p p') (h' : SameIds p' p'') : SameIds p p'' :=
  ⟨h'.uids.trans h.uids, h'.gids.trans h.gids, h'.unused.trans h.unused⟩

/-- Every slot keeps its identities, but for unused ones, in which there may be a process with these. -/
structure Births (uids gids : Ids) (k k' : Kernel) : Prop where
  users : k'.users = k.users
  current : k'.currentProc = k.currentProc
  slot : ∀ j, SameIds (k.procTable j) (k'.procTable j) ∨
    (k.procTable j).state = .unused ∧ (k'.procTable j).uids = uids ∧ (k'.procTable j).gids = gids

section Births

variable {uids gids : Ids} {k k₁ k' : Kernel}

/-- The table, the users and the current process are as they were. -/
theorem Births.same (ht : k'.procTable = k.procTable) (hu : k'.users = k.users) (hc : k'.currentProc = k.currentProc) :
    Births uids gids k k' := ⟨hu, hc, fun j => .inl (by rw [ht]; exact .refl _)⟩

/-- A change of other things first. -/
theorem Births.after (h : Births uids gids k₁ k') (ht : k₁.procTable = k.procTable) (hu : k₁.users = k.users)
    (hc : k₁.currentProc = k.currentProc) : Births uids gids k k' :=
  ⟨h.users.trans hu, h.current.trans hc, fun j => ht ▸ h.slot j⟩

/-- A change afterwards that leaves every slot's identities. -/
theorem Births.before (h : Births uids gids k k₁) (hs : ∀ j, SameIds (k₁.procTable j) (k'.procTable j))
    (hu : k'.users = k₁.users) (hc : k'.currentProc = k₁.currentProc) : Births uids gids k k' := by
  refine ⟨hu.trans h.users, hc.trans h.current, fun j => ?_⟩
  rcases h.slot j with hsame | ⟨hj, hids⟩
  · exact .inl (hsame.trans (hs j))
  · exact .inr ⟨hj, (hs j).uids.trans hids.1, (hs j).gids.trans hids.2⟩

theorem sameIds_modify {i : Slot} {f : Pcb → Pcb} (hf : ∀ p, SameIds p (f p)) (j : Slot) :
    SameIds (k.procTable j) ((k.modify i f).procTable j) := by
  rw [Kernel.modify_apply]
  split
  · next h =>
      rw [h]
      exact hf _
  · exact .refl _

theorem newPcb_ids (users : UserDb) (pid : UInt32) (a : CreateArgs) :
    (newPcb users pid a).uids = ⟨a.owner, a.owner, a.owner⟩ ∧
      (newPcb users pid a).gids = ⟨userGetGid users a.owner, userGetGid users a.owner, userGetGid users a.owner⟩ := by
  simp only [newPcb]
  split <;> exact ⟨rfl, rfl⟩

theorem births_procCreateInternal {a : CreateArgs} {owner : Int32} {users : UserDb} (ho : a.owner = owner)
    (hu : k.users = users) : Births ⟨owner, owner, owner⟩ (gidsOf users owner) k (procCreateInternal k a).1 := by
  subst ho hu
  simp only [procCreateInternal]
  split
  · exact .same rfl rfl rfl
  · next slot hs =>
      refine ⟨rfl, rfl, fun j => ?_⟩
      by_cases hj : j = slot
      · subst hj
        rw [Kernel.modify_same]
        exact .inr ⟨pcbAllocSlot_unused hs, newPcb_ids _ _ _⟩
      · rw [Kernel.modify_other _ _ hj]
        exact .inl (.refl _)

theorem births_procCreateUserImageWith (k : Kernel) (owner : Int32) (a : ImageArgs) (m : MapAnswers) :
    Births ⟨owner, owner, owner⟩ (gidsOf k.users owner) k (procCreateUserImageWith k owner a m).1 := by
  simp only [procCreateUserImageWith]
  split
  · split
    · exact .same rfl rfl rfl
    · next space k₁ h₁ =>
        cases vmmCreateAddressSpace_eq h₁
        split
        · split
          · exact .same rfl rfl rfl
          · split
            · refine Births.before (.after (births_procCreateInternal ?_ ?_) ?_ ?_ ?_) (fun _ => .refl _) ?_ ?_ <;> rfl
            · refine Births.after (births_procCreateInternal ?_ ?_) ?_ ?_ ?_ <;> rfl
        · exact .same rfl rfl rfl
  · exact .same rfl rfl rfl

/-- A child has the identities of its parent, which is another slot. -/
theorem births_pcbInitChild {slot parent : Slot} {space : Option Nat} {frame : Registers}
    (hs : pcbAllocSlot k = some slot) (hparent : (k.procTable parent).state ≠ .unused) :
    Births (k.procTable parent).uids (k.procTable parent).gids k (pcbInitChild k slot parent space frame) := by
  have hne : parent ≠ slot := fun e => hparent (e ▸ pcbAllocSlot_unused hs)
  refine ⟨rfl, rfl, fun j => ?_⟩
  by_cases hj : j = slot
  · subst hj
    refine .inr ⟨pcbAllocSlot_unused hs, ?_⟩
    simp only [pcbInitChild, Kernel.modify_same]
    rw [Kernel.modify_other _ _ hne]
    exact ⟨rfl, rfl⟩
  · rw [pcbInitChild_other k slot parent space frame hj]
    exact .inl (.refl _)

variable {i : Slot} (hi : k.currentProc = some i) (hu : (k.procTable i).state ≠ .unused)
include hi hu

theorem births_procFork (frame : Registers) (page : Option Nat) (cloned : Bool) :
    Births (k.procTable i).uids (k.procTable i).gids k (procFork k frame page cloned).1 := by
  simp only [procFork, hi]
  split
  · exact .same rfl rfl rfl
  · next slot hs =>
      split
      · exact births_pcbInitChild hs hu
      · split
        · exact .same rfl rfl rfl
        · next space k₁ h₁ =>
            cases vmmCreateAddressSpace_eq h₁
            split
            · exact (births_pcbInitChild (k := { k with spaces := Function.update k.spaces space true }) hs hu).after
                rfl rfl rfl
            · exact .same rfl rfl rfl

theorem births_procVfork (frame : Registers) :
    Births (k.procTable i).uids (k.procTable i).gids k (procVfork k frame).1 := by
  simp only [procVfork, hi]
  split
  · exact .same rfl rfl rfl
  · next slot hs =>
      have hborn : Births (k.procTable i).uids (k.procTable i).gids k
          (pcbInitChild k slot i (k.procTable i).addressSpace frame) := births_pcbInitChild hs hu
      set k₁ := pcbInitChild k slot i (k.procTable i).addressSpace frame
      set k₂ := k₁.modify slot fun p => p.setVforkParent (k₁.procTable i).pid.toInt32
      have hmarked : Births (k.procTable i).uids (k.procTable i).gids k k₂ :=
        hborn.before (sameIds_modify fun p => ⟨rfl, rfl, .rfl⟩) rfl rfl
      refine hmarked.before (fun j => ?_) rfl rfl
      show SameIds (k₂.procTable j) ((k₂.modify i fun p => p.awaitVfork k.nextPid frame).procTable j)
      clear_value k₂
      rw [Kernel.modify_apply]
      split
      · next hj =>
          rcases hmarked.slot i with hsame | ⟨hfree, -⟩
          · rw [hj]
            exact ⟨rfl, rfl, ⟨fun e => (by cases e), fun e => absurd (hsame.unused.mp e) hu⟩⟩
          · exact absurd hfree hu
      · exact .refl _

omit hi hu in
theorem sameIds_setChildStack (pid : Int32) (childStack : UInt64) (j : Slot) :
    SameIds (k.procTable j) ((setChildStack k pid childStack).procTable j) := by
  simp only [setChildStack]
  split
  · split
    · exact .refl _
    · exact sameIds_modify (f := fun p => p.setRsp childStack) (fun p => ⟨rfl, rfl, .rfl⟩) j
  · exact .refl _

theorem births_procClone (frame : Registers) (flags childStack : UInt64) (page : Option Nat) (cloned : Bool) :
    Births (k.procTable i).uids (k.procTable i).gids k (procClone k frame flags childStack page cloned).1 := by
  have hstack : ∀ {k' : Kernel} (pid : Int32), Births (k.procTable i).uids (k.procTable i).gids k k' →
      Births (k.procTable i).uids (k.procTable i).gids k (setChildStack k' pid childStack) := by
    intro k' pid h
    refine h.before (sameIds_setChildStack pid childStack) ?_ ?_
    · rw [setChildStack]
      split
      · split <;> rfl
      · rfl
    · exact (sameControl_setChildStack k' pid childStack).current
  simp only [procClone]
  split
  · exact hstack _ (births_procVfork hi hu frame)
  · split
    · simp only [procCloneVm, hi]
      split
      · exact .same rfl rfl rfl
      · next slot hs =>
          refine (births_pcbInitChild hs hu).before (sameIds_modify
            (f := fun p => if childStack ≠ 0 then p.setRsp childStack else p) fun p => ?_) rfl rfl
          split
          · exact ⟨rfl, rfl, .rfl⟩
          · exact .refl p
    · exact hstack _ (births_procFork hi hu frame page cloned)

omit hi hu in
/-- The image functions make no process, or one with the next PID. -/
theorem procCreateUserImageWith_cases (hpid : 0 < k.nextPid.toInt32) (owner : Int32) (a : ImageArgs) (m : MapAnswers) :
    (procCreateUserImageWith k owner a m).2 = -1 ∧ (procCreateUserImageWith k owner a m).1.procTable = k.procTable ∨
      ∃ slot, (k.procTable slot).state = .unused ∧ (procCreateUserImageWith k owner a m).2 = k.nextPid.toInt32 ∧
        Newborn k.nextPid ((procCreateUserImageWith k owner a m).1.procTable slot) ∧
        ∀ j, j ≠ slot → (procCreateUserImageWith k owner a m).1.procTable j = k.procTable j := by
  have hneg : ¬ k.nextPid.toInt32 < 0 := by
    intro h
    exact absurd (Int32.lt_trans hpid h) (by decide)
  simp only [procCreateUserImageWith]
  split
  · split
    · exact .inl ⟨rfl, rfl⟩
    · next space k₁ h₁ =>
        cases vmmCreateAddressSpace_eq h₁
        split
        · split
          · exact .inl ⟨rfl, rfl⟩
          · next base top rsp hstack =>
              cases hs : pcbAllocSlot { k with spaces := Function.update k.spaces space true } with
              | none =>
                  rw [userMapStack, hs] at hstack
                  cases hstack
              | some slot =>
                  simp only [procCreateInternal, hs, hneg, if_false]
                  refine .inr ⟨slot, pcbAllocSlot_unused hs, trivial, ?_, fun j hj => Kernel.modify_other _ _ hj⟩
                  rw [Kernel.modify_same]
                  exact newborn_newPcb _ _ _
        · exact .inl ⟨rfl, rfl⟩
  · exact .inl ⟨rfl, rfl⟩

omit hu in
/-- The caller of `sys_execve` is known to it. -/
theorem procGetOwner_current (hknown : procFindIndex k (k.procTable i).pid = some i) :
    procGetOwner k (procGetCurrentPid k) = (k.procTable i).owner := by
  have hpid : (procGetCurrentPid k).toUInt32 = (k.procTable i).pid := by
    rw [procGetCurrentPid, hi]
    exact UInt32.toUInt32_toInt32 _
  rw [procGetOwner, hpid, hknown]

omit hi hu in
/-- The process with the next PID, when it is the only one. -/
theorem procFindIndex_born (hfree : ∀ j, (k.procTable j).pid ≠ k.nextPid) {slot : Slot}
    (hpid : (k'.procTable slot).pid = k.nextPid) (hrest : ∀ j, j ≠ slot → k'.procTable j = k.procTable j) :
    procFindIndex k' k.nextPid = some slot := by
  cases hf : procFindIndex k' k.nextPid with
  | none =>
      have := List.find?_eq_none.mp hf slot (List.mem_finRange slot)
      simp [hpid] at this
  | some j =>
      have hj := procFindIndex_pid hf
      by_contra hne
      have hjs : j ≠ slot := fun e => hne (by rw [e])
      rw [hrest j hjs] at hj
      exact hfree j hj

omit hi hu in
/-- A process is made for root, and its owner is written over. -/
theorem births_setOwner {uid : Int32} (hexists : userExists k.users uid = true) (hfree : NextPidFree k) (a : ImageArgs)
    (m : MapAnswers) :
    Births ⟨uid, uidRoot, uidRoot⟩ (gidsOf k.users uidRoot) k
      (if (procCreateUserImageWith k uidRoot a m).2 > 0 then
        (procSetOwner (procCreateUserImageWith k uidRoot a m).1 (procCreateUserImageWith k uidRoot a m).2 uid).1
      else (procCreateUserImageWith k uidRoot a m).1) := by
  have hborn := births_procCreateUserImageWith k uidRoot a m
  have hcases := procCreateUserImageWith_cases hfree.1 uidRoot a m
  generalize procCreateUserImageWith k uidRoot a m = r at hborn hcases
  rcases hcases with ⟨hfail, htable⟩ | ⟨slot, hunused, hok, hnew, hrest⟩
  · rw [if_neg (by rw [hfail]; decide)]
    exact .same htable hborn.users hborn.current
  · have hfound : procFindIndex r.1 r.2.toUInt32 = some slot := by
      rw [hok, UInt32.toUInt32_toInt32]
      exact procFindIndex_born hfree.2 hnew.pid hrest
    rw [if_pos (by rw [hok]; exact hfree.1), procSetOwner, hborn.users, if_neg (by rw [hexists]; decide), hfound]
    refine ⟨hborn.users, hborn.current, fun j => ?_⟩
    by_cases hj : j = slot
    · subst hj
      rw [Kernel.modify_same]
      rcases hborn.slot j with hsame | ⟨-, huids, hgids⟩
      · have hready := hsame.unused.mpr hunused
        rw [hnew.state] at hready
        cases hready
      · refine .inr ⟨hunused, ?_, hgids⟩
        obtain ⟨-, heff, hsaved⟩ := Ids.mk.inj huids
        exact Ids.mk.injEq _ _ _ _ _ _ ▸ ⟨rfl, heff, hsaved⟩
    · rw [Kernel.modify_other _ _ hj, hrest j hj]
      exact .inl (.refl _)

omit hu in
/-- What `sys_execve` makes: root's process, whose owner is the caller's. -/
theorem births_sysExecve (hknown : procFindIndex k (k.procTable i).pid = some i) (hfree : NextPidFree k) (file : Program) :
    Births ⟨(k.procTable i).owner, uidRoot, uidRoot⟩ (gidsOf k.users uidRoot) k (sysExecve k file).1 ∧
      ((sysExecve k file).1 = k ∨ userIsRoot k.users (k.procTable i).owner = true ∨
        file.mayExec (k.procTable i).owner = true) := by
  simp only [sysExecve, procGetOwner_current hi hknown]
  split
  · exact ⟨.same rfl rfl rfl, .inl rfl⟩
  · next hexists =>
      split
      · exact ⟨.same rfl rfl rfl, .inl rfl⟩
      · next hmay =>
          refine ⟨?_, .inr ?_⟩
          · rw [binLoadElfArgv]
            cases file.image with
            | none => exact .same rfl rfl rfl
            | some a => exact births_setOwner (Bool.eq_true_of_not_eq_false hexists) hfree _ _
          · simp only [Bool.not_eq_false, not_and_or] at hmay
            exact hmay

omit hi hu in
/-- A process that was not there has the identities of the birth. -/
theorem Births.ids (h : Births uids gids k k') {j : Slot} (hj : Born k k' j) :
    (k'.procTable j).uids = uids ∧ (k'.procTable j).gids = gids := by
  rcases h.slot j with hsame | ⟨-, hids⟩
  · exact absurd (hsame.unused.mpr hj.1) hj.2
  · exact hids

omit hu in
/-- A lawful `sys_execve` makes a process as its caller is. -/
theorem births_execve_lawful (file : Program) (hroot : EffectivelyRoot k i) (hfree : NextPidFree k)
    (hknown : procFindIndex k (k.procTable i).pid = some i) :
    Births (k.procTable i).uids (k.procTable i).gids k (sysExecve k file).1 ∧ AsCaller k file (sysExecve k file).1 := by
  obtain ⟨hborn, hmay⟩ := births_sysExecve hi hknown hfree file
  obtain ⟨heff, hsaved, hgids⟩ := hroot
  have huids : (k.procTable i).uids = ⟨(k.procTable i).owner, uidRoot, uidRoot⟩ := by
    rw [Pcb.uids, heff, hsaved]
  rw [← huids, ← hgids] at hborn
  refine ⟨hborn, fun i' hi' j hj => ?_⟩
  rw [hi] at hi'
  cases hi'
  refine ⟨?_, hborn.ids hj⟩
  rcases hmay with hsame | hroot | hexec
  · rw [hsame] at hj
    exact absurd hj.1 hj.2
  · exact .inr hroot
  · exact .inl hexec

omit hu in
/-- A lawful `load_bin` too. -/
theorem births_loadBin_lawful {file : Program} (hroot : EffectivelyRoot k i) (howner : (k.procTable i).owner = uidRoot)
    (hmay : file.mayExec uidRoot = true ∨ userIsRoot k.users uidRoot = true) (priority : UInt64) :
    Births (k.procTable i).uids (k.procTable i).gids k (loadBin k file priority).1 ∧
      AsCaller k file (loadBin k file priority).1 := by
  obtain ⟨heff, hsaved, hgids⟩ := hroot
  have huids : (k.procTable i).uids = ⟨uidRoot, uidRoot, uidRoot⟩ := by
    rw [Pcb.uids, heff, hsaved, howner]
  have hborn : Births (k.procTable i).uids (k.procTable i).gids k (loadBin k file priority).1 := by
    rw [huids, hgids]
    simp only [loadBin, binLoadElf]
    split
    · exact .same rfl rfl rfl
    · exact births_procCreateUserImageWith k uidRoot _ _
  refine ⟨hborn, fun i' hi' j hj => ?_⟩
  rw [hi] at hi'
  cases hi'
  rw [howner]
  exact ⟨hmay, hborn.ids hj⟩

end Births

/-! ### Changes of identity -/

/-- Only the identities of the process in slot `i` changed. -/
structure OnlyIds (i : Slot) (k k' : Kernel) : Prop where
  users : k'.users = k.users
  current : k'.currentProc = k.currentProc
  other : ∀ j, j ≠ i → k'.procTable j = k.procTable j
  state : (k'.procTable i).state = (k.procTable i).state

section OnlyIds

variable {i : Slot} {k k₁ k' : Kernel}

theorem OnlyIds.refl (k : Kernel) : OnlyIds i k k := ⟨rfl, rfl, fun _ _ => rfl, rfl⟩

theorem OnlyIds.trans (h : OnlyIds i k k₁) (h' : OnlyIds i k₁ k') : OnlyIds i k k' :=
  ⟨h'.users.trans h.users, h'.current.trans h.current, fun j hj => (h'.other j hj).trans (h.other j hj),
    h'.state.trans h.state⟩

theorem onlyIds_onUids (hi : k.currentProc = some i) (f : Bool → Ids → Ids × Int32) : OnlyIds i k (onUids k f).1 := by
  simp only [onUids, hi]
  refine ⟨rfl, rfl, fun j hj => Kernel.modify_other _ _ hj, ?_⟩
  rw [Kernel.modify_same]
  rfl

theorem onlyIds_onGids (hi : k.currentProc = some i) (f : Bool → Ids → Ids × Int32) : OnlyIds i k (onGids k f).1 := by
  simp only [onGids, hi]
  refine ⟨rfl, rfl, fun j hj => Kernel.modify_other _ _ hj, ?_⟩
  rw [Kernel.modify_same]
  rfl

theorem onlyIds_credStep (hi : k.currentProc = some i) (o : CredOp) : OnlyIds i k (credStep k o) := by
  cases o with
  | setresuid ruid euid suid =>
      simp only [credStep, sysSetresuid]
      split
      · exact .refl k
      · have hfirst : OnlyIds i k (procSetreuid k (narrow ruid) (narrow euid)).1 := onlyIds_onUids hi _
        split
        · exact hfirst
        · split
          · exact hfirst.trans (onlyIds_onUids (hfirst.current.trans hi) _)
          · exact hfirst
  | setuid | seteuid | setreuid => exact onlyIds_onUids hi _
  | setgid | setegid | setregid | setresgid => exact onlyIds_onGids hi _

end OnlyIds

/-! ### Runs -/

/-- A member runs, and every member is a process. -/
structure Kin (users : UserDb) (s : Family) : Prop where
  users : s.kernel.users = users
  current : ∃ i, s.kernel.currentProc = some i ∧ s.member i = true
  used : ∀ j, s.member j = true → (s.kernel.procTable j).state ≠ .unused

/-- No member has a root identity. -/
def Clean (users : UserDb) (s : Family) : Prop := ∀ j, s.member j = true → (s.kernel.procTable j).uids.NoRoot users

section Runs

variable {users : UserDb} {s s' : Family} {k' : Kernel}

/-- A birth with a member's identities. -/
theorem Kin.births (h : Kin users s) {i : Slot} (hi : s.member i = true)
    (hb : Births (s.kernel.procTable i).uids (s.kernel.procTable i).gids s.kernel k') :
    Kin users (s.grow k') ∧ (Clean users s → Clean users (s.grow k')) := by
  have hkept : ∀ j, s.member j = true → SameIds (s.kernel.procTable j) (k'.procTable j) := fun j hj =>
    (hb.slot j).resolve_right fun hun => h.used j hj hun.1
  obtain ⟨c, hc, hmem⟩ := h.current
  refine ⟨⟨hb.users.trans h.users, ⟨c, hb.current.trans hc, ?_⟩, fun j hj => ?_⟩, fun hclean j hj => ?_⟩
  · exact (Bool.or_eq_true _ _).mpr (.inl hmem)
  · rcases (Bool.or_eq_true _ _).mp hj with hj | hj
    · exact fun e => h.used j hj ((hkept j hj).unused.mp e)
    · exact (of_decide_eq_true hj).2
  · rcases (Bool.or_eq_true _ _).mp hj with hj | hj
    · show (k'.procTable j).uids.NoRoot users
      rw [(hkept j hj).uids]
      exact hclean j hj
    · show (k'.procTable j).uids.NoRoot users
      rw [(hb.ids (of_decide_eq_true hj)).1]
      exact hclean i hi

/-- A change of the running process's identities. -/
theorem Kin.onlyIds (h : Kin users s) {i : Slot} (hi : s.kernel.currentProc = some i) (hmem : s.member i = true)
    (ho : OnlyIds i s.kernel k') (hids : (s.kernel.procTable i).uids.NoRoot users → (k'.procTable i).uids.NoRoot users) :
    Kin users (s.grow k') ∧ (Clean users s → Clean users (s.grow k')) := by
  have hstate : ∀ j, (k'.procTable j).state = (s.kernel.procTable j).state := by
    intro j
    by_cases hj : j = i
    · rw [hj, ho.state]
    · rw [ho.other j hj]
  have hold : ∀ j, (s.grow k').member j = true → s.member j = true := by
    intro j hj
    rcases (Bool.or_eq_true _ _).mp hj with hj | hj
    · exact hj
    · have hborn := of_decide_eq_true hj
      exact absurd ((hstate j).trans hborn.1) hborn.2
  refine ⟨⟨ho.users.trans h.users, ⟨i, ho.current.trans hi, (Bool.or_eq_true _ _).mpr (.inl hmem)⟩, fun j hj => ?_⟩,
    fun hclean j hj => ?_⟩
  · show (k'.procTable j).state ≠ .unused
    rw [hstate j]
    exact h.used j (hold j hj)
  · show (k'.procTable j).uids.NoRoot users
    by_cases hji : j = i
    · rw [hji]
      exact hids (hclean i hmem)
    · rw [ho.other j hji]
      exact hclean j (hold j hj)

theorem Kin.step (h : Kin users s) {o : LaunchOp} (hlaw : Lawful s o) (hs : launchStep s o = some s') :
    (Kin users s' ∧ (Clean users s → Clean users s')) ∧ LaunchesAsCaller s s' o := by
  obtain ⟨i, hi, hmem⟩ := h.current
  have hu := h.used i hmem
  cases o with
  | schedule j =>
      rw [launchStep] at hs
      split at hs
      · next hj =>
          cases hs
          refine ⟨?_, trivial⟩
          have hold : ∀ j', (s.grow (launchKernel s.kernel (.schedule j))).member j' = true → s.member j' = true := by
            intro j' hj'
            rcases (Bool.or_eq_true _ _).mp hj' with hj' | hj'
            · exact hj'
            · exact absurd (of_decide_eq_true hj').1 (of_decide_eq_true hj').2
          exact ⟨⟨h.users, ⟨j, rfl, (Bool.or_eq_true _ _).mpr (.inl hj)⟩, fun j' hj' => h.used j' (hold j' hj')⟩,
            fun hclean j' hj' => hclean j' (hold j' hj')⟩
      · cases hs
  | cred o =>
      cases hs
      refine ⟨h.onlyIds hi hmem (onlyIds_credStep hi o) fun hno => ?_, trivial⟩
      rw [← h.users] at hno ⊢
      have hconf : Confined i s.kernel (credStep s.kernel o) := Confined.step ⟨hi, rfl, .refl _, .refl _⟩ hno o
      exact fun id hid => hno id (hconf.uids.has hid)
  | fork frame page cloned =>
      cases hs
      exact ⟨h.births hmem (births_procFork hi hu frame page cloned), trivial⟩
  | vfork frame =>
      cases hs
      exact ⟨h.births hmem (births_procVfork hi hu frame), trivial⟩
  | clone frame flags childStack page cloned =>
      cases hs
      exact ⟨h.births hmem (births_procClone hi hu frame flags childStack page cloned), trivial⟩
  | execve file =>
      cases hs
      obtain ⟨hroot, hfree, hknown⟩ := hlaw i hi
      obtain ⟨hborn, hcaller⟩ := births_execve_lawful hi file hroot hfree hknown
      exact ⟨h.births hmem hborn, hcaller⟩
  | loadBin file priority =>
      cases hs
      obtain ⟨hroot, howner, hmay⟩ := hlaw i hi
      obtain ⟨hborn, hcaller⟩ := births_loadBin_lawful hi hroot howner hmay priority
      exact ⟨h.births hmem hborn, hcaller⟩

/-- **Launches keep identities**, over every run of a process and its descendants in which only effective root
launches. -/
theorem launches_keep_identity {k : Kernel} {i : Slot} (hi : k.currentProc = some i)
    (hu : (k.procTable i).state ≠ .unused) {os : List LaunchOp}
    (hlaw : Meets launchStep Lawful ⟨k, fun j => j == i⟩ os) :
    Along launchStep (fun s o s' => LaunchesAsCaller s s' o ∧
      ((k.procTable i).uids.NoRoot k.users → NoRootMember s')) ⟨k, fun j => j == i⟩ os := by
  have hkin : Kin k.users ⟨k, fun j => j == i⟩ := by
    refine ⟨rfl, ⟨i, hi, beq_self_eq_true i⟩, fun j hj => ?_⟩
    rw [eq_of_beq hj]
    exact hu
  have hstart : (k.procTable i).uids.NoRoot k.users → Clean k.users ⟨k, fun j => j == i⟩ := by
    intro hno j hj
    rw [eq_of_beq hj]
    exact hno
  have hstep : ∀ s o s', (Kin k.users s ∧ ((k.procTable i).uids.NoRoot k.users → Clean k.users s)) → Lawful s o →
      launchStep s o = some s' → (Kin k.users s' ∧ ((k.procTable i).uids.NoRoot k.users → Clean k.users s')) ∧
        LaunchesAsCaller s s' o ∧ ((k.procTable i).uids.NoRoot k.users → NoRootMember s') := by
    intro s o s' hinv hl hs
    obtain ⟨⟨hkin', hclean⟩, hlaunch⟩ := hinv.1.step hl hs
    refine ⟨⟨hkin', fun hno => hclean (hinv.2 hno)⟩, hlaunch, fun hno j hj => ?_⟩
    rw [hkin'.users]
    exact hclean (hinv.2 hno) j hj _ (.inr (.inl rfl))
  exact along_of_inv hstep ⟨hkin, hstart⟩ hlaw

end Runs

/-! ### Runs on fixed inputs -/

/-- One process, with these identities, that runs. -/
def runningProcess (uids gids : Ids) : Kernel :=
  let k : Kernel := { users := twoUsers, nextPid := 2, currentProc := some firstSlot }
  k.modify firstSlot fun _ =>
    { pid := 1, state := .running, owner := uids.real, euid := uids.eff, savedUid := uids.saved, group := gids.real,
      egroup := gids.eff, savedGid := gids.saved }

/-- A program that anybody may execute. -/
def shell : Program where
  mayExec _ := true
  image := some { imageSize := 0x1000, loadVaddr := 0x400000, entryVaddr := 0x400000 }
  map := { space := some 5 }

/-- A process of user 1 that is effectively root. -/
def asRoot : Kernel := runningProcess ⟨1, 0, 0⟩ ⟨0, 0, 0⟩

/-- It launches a program, becomes user 1 and forks. -/
def launchRun : List LaunchOp := [.execve shell, .cred (.setreuid 1 1), .fork {} none true, .schedule ⟨1, by decide⟩]

theorem launches_keep_identity_launchRun :
    Meets launchStep Lawful ⟨asRoot, fun j => j == firstSlot⟩ launchRun ∧
    Along launchStep (fun s o s' => LaunchesAsCaller s s' o ∧
      ((asRoot.procTable firstSlot).uids.NoRoot asRoot.users → NoRootMember s'))
      ⟨asRoot, fun j => j == firstSlot⟩ launchRun := by
  have h : Meets launchStep Lawful ⟨asRoot, fun j => j == firstSlot⟩ launchRun := by decide +kernel
  exact ⟨h, launches_keep_identity rfl (by decide) h⟩

/-- **A process of user 1 launches a program, which runs as root.** -/
theorem launched_as_root : ¬ ∀ (k : Kernel) (i : Slot) (os : List LaunchOp), k.currentProc = some i →
    (k.procTable i).state ≠ .unused → Along launchStep (fun s o s' => LaunchesAsCaller s s' o ∧
      ((k.procTable i).uids.NoRoot k.users → NoRootMember s')) ⟨k, fun j => j == i⟩ os := by
  intro h
  have hrun := h (runningProcess ⟨1, 1, 1⟩ ⟨1, 1, 1⟩) firstSlot [.execve shell] rfl (by decide)
  obtain ⟨⟨-, hno⟩, -⟩ := hrun _ rfl
  have hnone : ((runningProcess ⟨1, 1, 1⟩ ⟨1, 1, 1⟩).procTable firstSlot).uids.NoRoot twoUsers := by
    rintro id (rfl | rfl | rfl) <;> decide
  have heuid := hno hnone ⟨1, by decide⟩ (by decide +kernel)
  revert heuid
  decide +kernel

end Blackmount.Proc
