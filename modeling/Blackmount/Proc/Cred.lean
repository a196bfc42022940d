import Blackmount.Lib.Run
import Blackmount.Proc.Ops

/-!
# Proc — credentials

The calls by which a process changes its user and group identities.  A process has three of each, a real, an
effective and a saved one; `Ids` is such a triple, and the functions for users and for groups are the same functions
of a triple, but for `sys_setresuid` and `sys_getresuid`, which have bodies of their own.

* `no_escalation`: without a root identity a process keeps to the identities it has, over every sequence of calls.
* `setresuid_as_setresgid_iff`: when `sys_setresuid` does what `proc_setresgid` does.
* `all_or_nothing_iff`: when a call that fails has changed nothing.
-/

namespace Blackmount.Proc
open Blackmount.Lib Blackmount.User

def eperm : Nat := 1
def esrch : Nat := 3

/-- `serror`. -/
def serror (err : Nat) : UInt64 := 0 - UInt64.ofNat err

/-- The cast of a system call's argument to `uid_t` or `gid_t`. -/
def narrow (x : UInt64) : Int32 := x.toUInt32.toInt32

/-! ### Triples -/

structure Ids where
  real : Int32
  eff : Int32
  saved : Int32
  deriving DecidableEq, Repr

namespace Ids

/-- `proc_setuid` and `proc_setgid`. -/
def set (root : Bool) (t : Ids) (id : Int32) : Ids × Int32 :=
  if root then (⟨id, id, id⟩, 0)
  else if id = t.real ∨ id = t.saved then ({ t with eff := id }, 0)
  else (t, -1)

/-- `proc_seteuid` and `proc_setegid`. -/
def setEff (root : Bool) (t : Ids) (id : Int32) : Ids × Int32 :=
  if root then ({ t with eff := id }, 0)
  else if id = t.real ∨ id = t.saved then ({ t with eff := id }, 0)
  else (t, -1)

/-- `proc_setreuid` and `proc_setregid`; a refusal of `eff` comes after `real` is set. -/
def setReal (root : Bool) (t : Ids) (real eff : Int32) : Ids × Int32 :=
  if real ≠ -1 ∧ root = false ∧ real ≠ t.real ∧ real ≠ t.eff then (t, -1)
  else
    let t₁ : Ids := if real ≠ -1 then { t with real := real } else t
    if eff ≠ -1 ∧ root = false ∧ eff ≠ t.real ∧ eff ≠ t₁.eff ∧ eff ≠ t₁.saved then (t₁, -1)
    else
      let t₂ : Ids := if eff ≠ -1 then { t₁ with eff := eff } else t₁
      (if real ≠ -1 ∨ eff ≠ -1 ∧ eff ≠ t.real then { t₂ with saved := t₂.eff } else t₂, 0)

/-- The test of `proc_setresgid` on one argument. -/
def allows (t : Ids) (id : Int32) : Prop := id = -1 ∨ id = t.real ∨ id = t.eff ∨ id = t.saved

instance (t : Ids) (id : Int32) : Decidable (t.allows id) := by delta allows; infer_instance

/-- `proc_setresgid`. -/
def setRes (root : Bool) (t : Ids) (real eff saved : Int32) : Ids × Int32 :=
  if root = false ∧ ¬ (t.allows real ∧ t.allows eff ∧ t.allows saved) then (t, -1)
  else
    (⟨if real ≠ -1 then real else t.real, if eff ≠ -1 then eff else t.eff, if saved ≠ -1 then saved else t.saved⟩, 0)

end Ids

def Pcb.uids (p : Pcb) : Ids := ⟨p.owner, p.euid, p.savedUid⟩
def Pcb.gids (p : Pcb) : Ids := ⟨p.group, p.egroup, p.savedGid⟩
def Pcb.setUids (p : Pcb) (t : Ids) : Pcb := { p with owner := t.real, euid := t.eff, savedUid := t.saved }
def Pcb.setGids (p : Pcb) (t : Ids) : Pcb := { p with group := t.real, egroup := t.eff, savedGid := t.saved }

@[simp] theorem Pcb.uids_setUids (p : Pcb) (t : Ids) : (p.setUids t).uids = t := rfl
@[simp] theorem Pcb.gids_setGids (p : Pcb) (t : Ids) : (p.setGids t).gids = t := rfl
@[simp] theorem Pcb.uids_setGids (p : Pcb) (t : Ids) : (p.setGids t).uids = p.uids := rfl
@[simp] theorem Pcb.gids_setUids (p : Pcb) (t : Ids) : (p.setUids t).gids = p.gids := rfl

/-! ### The functions of `proc.c` -/

/-- A change of the current process's user identities; what it may do depends on its effective one. -/
def onUids (s : Kernel) (f : Bool → Ids → Ids × Int32) : Kernel × Int32 :=
  match s.currentProc with
  | none => (s, -1)
  | some i =>
      let r := f (userIsRoot s.users (s.procTable i).euid) (s.procTable i).uids
      (s.modify i fun p => p.setUids r.1, r.2)

/-- The same for its group identities; the effective user decides here too. -/
def onGids (s : Kernel) (f : Bool → Ids → Ids × Int32) : Kernel × Int32 :=
  match s.currentProc with
  | none => (s, -1)
  | some i =>
      let r := f (userIsRoot s.users (s.procTable i).euid) (s.procTable i).gids
      (s.modify i fun p => p.setGids r.1, r.2)

def procSetuid (s : Kernel) (uid : Int32) : Kernel × Int32 := onUids s fun root t => t.set root uid
def procSeteuid (s : Kernel) (uid : Int32) : Kernel × Int32 := onUids s fun root t => t.setEff root uid
def procSetreuid (s : Kernel) (ruid euid : Int32) : Kernel × Int32 := onUids s fun root t => t.setReal root ruid euid
def procSetgid (s : Kernel) (gid : Int32) : Kernel × Int32 := onGids s fun root t => t.set root gid
def procSetegid (s : Kernel) (gid : Int32) : Kernel × Int32 := onGids s fun root t => t.setEff root gid
def procSetregid (s : Kernel) (rgid egid : Int32) : Kernel × Int32 := onGids s fun root t => t.setReal root rgid egid
def procSetresgid (s : Kernel) (rgid egid sgid : Int32) : Kernel × Int32 :=
  onGids s fun root t => t.setRes root rgid egid sgid

def procGetuid (s : Kernel) : Int32 := s.currentProc.elim (-1) fun i => (s.procTable i).owner
def procGeteuid (s : Kernel) : Int32 := s.currentProc.elim (-1) fun i => (s.procTable i).euid

/-! ### The system calls -/

/-- `r == 0 ? 0 : serror(EPERM)`. -/
def orPerm (r : Kernel × Int32) : Kernel × UInt64 := (r.1, if r.2 = 0 then 0 else serror eperm)

def sysSetuid (s : Kernel) (uid : UInt64) : Kernel × UInt64 := orPerm (procSetuid s (narrow uid))
def sysSeteuid (s : Kernel) (uid : UInt64) : Kernel × UInt64 := orPerm (procSeteuid s (narrow uid))
def sysSetgid (s : Kernel) (gid : UInt64) : Kernel × UInt64 := orPerm (procSetgid s (narrow gid))
def sysSetreuid (s : Kernel) (ruid euid : UInt64) : Kernel × UInt64 := orPerm (procSetreuid s (narrow ruid) (narrow euid))
def sysSetregid (s : Kernel) (rgid egid : UInt64) : Kernel × UInt64 := orPerm (procSetregid s (narrow rgid) (narrow egid))
def sysSetresgid (s : Kernel) (rgid egid sgid : UInt64) : Kernel × UInt64 :=
  orPerm (procSetresgid s (narrow rgid) (narrow egid) (narrow sgid))

/-- `sys_setresuid`: the saved identity asked for is not looked at, or is made the effective one. -/
def sysSetresuid (s : Kernel) (ruid euid suid : UInt64) : Kernel × UInt64 :=
  if procGetCurrentPid s < 0 then (s, serror esrch)
  else if userIsRoot s.users (procGeteuid s) = false then
    let r := procSetreuid s (narrow ruid) (narrow euid)
    (r.1, if r.2 < 0 then serror eperm else 0)
  else
    let s := (procSetreuid s (narrow ruid) (narrow euid)).1
    (if suid ≠ 0 - 1 then (procSeteuid s (narrow suid)).1 else s, 0)

/-- What `sys_getresuid` stores, with pointers that are not `NULL`. -/
def sysGetresuid (s : Kernel) : Ids := ⟨procGetuid s, procGeteuid s, procGeteuid s⟩

/-! ### No call escalates -/

namespace Ids

/-- One of the three. -/
def Has (t : Ids) (id : Int32) : Prop := id = t.real ∨ id = t.eff ∨ id = t.saved

/-- All three are among those of another triple. -/
structure Within (t t₀ : Ids) : Prop where
  real : t₀.Has t.real
  eff : t₀.Has t.eff
  saved : t₀.Has t.saved

theorem Within.refl (t : Ids) : t.Within t := ⟨.inl rfl, .inr (.inl rfl), .inr (.inr rfl)⟩

variable {t t₀ : Ids}

theorem Within.has (h : t.Within t₀) {id : Int32} (hid : t.Has id) : t₀.Has id := by
  rcases hid with rfl | rfl | rfl
  · exact h.real
  · exact h.eff
  · exact h.saved

theorem Within.set (h : t.Within t₀) (id : Int32) : (t.set false id).1.Within t₀ := by
  simp only [Ids.set, Bool.false_eq_true, if_false]
  split
  · next hid => exact ⟨h.real, h.has (hid.elim .inl fun e => .inr (.inr e)), h.saved⟩
  · exact h

theorem Within.setEff (h : t.Within t₀) (id : Int32) : (t.setEff false id).1.Within t₀ := by
  simp only [Ids.setEff, Bool.false_eq_true, if_false]
  split
  · next hid => exact ⟨h.real, h.has (hid.elim .inl fun e => .inr (.inr e)), h.saved⟩
  · exact h

theorem Within.setReal (h : t.Within t₀) (real eff : Int32) : (t.setReal false real eff).1.Within t₀ := by
  simp only [Ids.setReal]
  split
  · exact h
  · next hreal =>
      have h₁ : (if real ≠ -1 then { t with real := real } else t).Within t₀ := by
        split
        · refine ⟨h.has ?_, h.eff, h.saved⟩
          simp only [Ids.Has]
          tauto
        · exact h
      have hsame : (if real ≠ -1 then { t with real := real } else t).eff = t.eff ∧
          (if real ≠ -1 then { t with real := real } else t).saved = t.saved := by
        split
        · exact ⟨rfl, rfl⟩
        · exact ⟨rfl, rfl⟩
      generalize (if real ≠ -1 then { t with real := real } else t) = t₁ at h₁ hsame
      split
      · exact h₁
      · next heff =>
          have h₂ : (if eff ≠ -1 then { t₁ with eff := eff } else t₁).Within t₀ := by
            split
            · refine ⟨h₁.real, h.has ?_, h₁.saved⟩
              rw [hsame.1, hsame.2] at heff
              simp only [Ids.Has]
              tauto
            · exact h₁
          generalize (if eff ≠ -1 then { t₁ with eff := eff } else t₁) = t₂ at h₂
          split
          · exact ⟨h₂.real, h₂.eff, h₂.eff⟩
          · exact h₂

theorem Within.setRes (h : t.Within t₀) (real eff saved : Int32) : (t.setRes false real eff saved).1.Within t₀ := by
  have hone : ∀ {id x : Int32}, t.allows id → t₀.Has x → t₀.Has (if id ≠ -1 then id else x) := by
    intro id x hid hx
    split
    · next hne => exact h.has (hid.resolve_left hne)
    · exact hx
  simp only [Ids.setRes, true_and]
  split
  · exact h
  · next hallow =>
      obtain ⟨hr, he, hs⟩ := not_not.mp hallow
      exact ⟨hone hr h.real, hone he h.eff, hone hs h.saved⟩

end Ids

/-- The calls of one process that change its identities; `proc_setegid` has no system call. -/
inductive CredOp where
  | setuid (uid : UInt64)
  | seteuid (uid : UInt64)
  | setreuid (ruid euid : UInt64)
  | setresuid (ruid euid suid : UInt64)
  | setgid (gid : UInt64)
  | setegid (gid : Int32)
  | setregid (rgid egid : UInt64)
  | setresgid (rgid egid sgid : UInt64)

def credStep (s : Kernel) : CredOp → Kernel
  | .setuid uid => (sysSetuid s uid).1
  | .seteuid uid => (sysSeteuid s uid).1
  | .setreuid ruid euid => (sysSetreuid s ruid euid).1
  | .setresuid ruid euid suid => (sysSetresuid s ruid euid suid).1
  | .setgid gid => (sysSetgid s gid).1
  | .setegid gid => (procSetegid s gid).1
  | .setregid rgid egid => (sysSetregid s rgid egid).1
  | .setresgid rgid egid sgid => (sysSetresgid s rgid egid sgid).1

/-- After any number of calls. -/
def credRun (s : Kernel) (os : List CredOp) : Kernel := os.foldl credStep s

/-- None of the three is root. -/
def Ids.NoRoot (t : Ids) (users : UserDb) : Prop := ∀ id, t.Has id → userIsRoot users id = false

/-- What the calls leave of a process that had no root identity. -/
structure Confined (i : Slot) (s₀ s : Kernel) : Prop where
  current : s.currentProc = some i
  users : s.users = s₀.users
  uids : (s.procTable i).uids.Within (s₀.procTable i).uids
  gids : (s.procTable i).gids.Within (s₀.procTable i).gids

section Confined

variable {i : Slot} {s₀ s : Kernel}

theorem Confined.notRoot (h : Confined i s₀ s) (hroot : (s₀.procTable i).uids.NoRoot s₀.users) :
    userIsRoot s.users (s.procTable i).euid = false := by
  rw [h.users]
  exact hroot _ h.uids.eff

theorem Confined.onUids (h : Confined i s₀ s) (hroot : (s₀.procTable i).uids.NoRoot s₀.users)
    {f : Bool → Ids → Ids × Int32} (hf : ∀ {t t₀ : Ids}, t.Within t₀ → (f false t).1.Within t₀) :
    Confined i s₀ (onUids s f).1 := by
  simp only [Proc.onUids, h.current, h.notRoot hroot]
  refine ⟨h.current, h.users, ?_, ?_⟩
  · rw [Kernel.modify_same, Pcb.uids_setUids]
    exact hf h.uids
  · rw [Kernel.modify_same, Pcb.gids_setUids]
    exact h.gids

theorem Confined.onGids (h : Confined i s₀ s) (hroot : (s₀.procTable i).uids.NoRoot s₀.users)
    {f : Bool → Ids → Ids × Int32} (hf : ∀ {t t₀ : Ids}, t.Within t₀ → (f false t).1.Within t₀) :
    Confined i s₀ (onGids s f).1 := by
  simp only [Proc.onGids, h.current, h.notRoot hroot]
  refine ⟨h.current, h.users, ?_, ?_⟩
  · rw [Kernel.modify_same, Pcb.uids_setGids]
    exact h.uids
  · rw [Kernel.modify_same, Pcb.gids_setGids]
    exact hf h.gids

theorem Confined.step (h : Confined i s₀ s) (hroot : (s₀.procTable i).uids.NoRoot s₀.users) (o : CredOp) :
    Confined i s₀ (credStep s o) := by
  cases o with
  | setuid uid => exact h.onUids hroot fun hw => hw.set _
  | seteuid uid => exact h.onUids hroot fun hw => hw.setEff _
  | setreuid ruid euid => exact h.onUids hroot fun hw => hw.setReal _ _
  | setresuid ruid euid suid =>
      have heuid : procGeteuid s = (s.procTable i).euid := by rw [procGeteuid, h.current]; rfl
      simp only [credStep, sysSetresuid]
      split
      · exact h
      · rw [heuid, if_pos (h.notRoot hroot)]
        exact h.onUids hroot fun hw => hw.setReal _ _
  | setgid gid => exact h.onGids hroot fun hw => hw.set _
  | setegid gid => exact h.onGids hroot fun hw => hw.setEff _
  | setregid rgid egid => exact h.onGids hroot fun hw => hw.setReal _ _
  | setresgid rgid egid sgid => exact h.onGids hroot fun hw => hw.setRes _ _ _

theorem Confined.run (h : Confined i s₀ s) (hroot : (s₀.procTable i).uids.NoRoot s₀.users) (os : List CredOp) :
    Confined i s₀ (credRun s os) := by
  induction os generalizing s with
  | nil => exact h
  | cons o os ih => exact ih (h.step hroot o)

end Confined

/-- `proc_setuid` by root gives all three identities up. -/
theorem procSetuid_root {s : Kernel} {i : Slot} (hi : s.currentProc = some i)
    (hroot : userIsRoot s.users (s.procTable i).euid = true) (uid : Int32) :
    (procSetuid s uid).1 = s.modify i fun p => p.setUids ⟨uid, uid, uid⟩ := by
  simp only [procSetuid, onUids, hi, hroot, Ids.set, if_true]

/-- **No escalation.**  A process without a root identity keeps to its user and group identities, whatever calls it
makes; and root that gave its identities up for one that is not root does not become root again. -/
theorem no_escalation (s : Kernel) (i : Slot) (hi : s.currentProc = some i) :
    ((s.procTable i).uids.NoRoot s.users → ∀ os : List CredOp,
      ((credRun s os).procTable i).uids.Within (s.procTable i).uids ∧
      ((credRun s os).procTable i).gids.Within (s.procTable i).gids) ∧
    ∀ uid : Int32, userIsRoot s.users (s.procTable i).euid = true → userIsRoot s.users uid = false →
      ∀ os : List CredOp, userIsRoot s.users ((credRun (procSetuid s uid).1 os).procTable i).euid = false := by
  constructor
  · intro hroot os
    have h : Confined i s (credRun s os) := Confined.run ⟨hi, rfl, .refl _, .refl _⟩ hroot os
    exact ⟨h.uids, h.gids⟩
  · intro uid hroot huid os
    rw [procSetuid_root hi hroot]
    generalize hs : (s.modify i fun p => p.setUids ⟨uid, uid, uid⟩) = s₁
    have huids : (s₁.procTable i).uids = ⟨uid, uid, uid⟩ := by
      rw [← hs, Kernel.modify_same, Pcb.uids_setUids]
    have husers : s₁.users = s.users := by
      rw [← hs]
      rfl
    have hcur : s₁.currentProc = some i := by
      rw [← hs]
      exact hi
    have hno : (s₁.procTable i).uids.NoRoot s₁.users := by
      intro id hid
      rw [huids] at hid
      rw [husers]
      rcases hid with rfl | rfl | rfl <;> exact huid
    have h : Confined i s₁ (credRun s₁ os) := Confined.run ⟨hcur, rfl, .refl _, .refl _⟩ hno os
    have := h.notRoot hno
    rwa [h.users, husers] at this

/-- A root user and another one. -/
def twoUsers : UserDb where
  users i := if i.val = 0 then ⟨true, 0⟩ else if i.val = 1 then ⟨true, 1⟩ else {}
  groups i := if i.val = 0 then ⟨true, .root⟩ else if i.val = 1 then ⟨true, .user⟩ else {}

/-- One process, with these identities. -/
def oneProcess (uids : Ids) : Kernel where
  procTable i :=
    if i.val = 0 then { pid := 1, owner := uids.real, euid := uids.eff, savedUid := uids.saved, group := 1,
                        egroup := 1, savedGid := 1 } else {}
  currentProc := some ⟨0, by decide⟩
  users := twoUsers

/-- A process of root that becomes user 1 and asks for everything back. -/
theorem no_escalation_dropped : userIsRoot twoUsers 0 = true ∧ userIsRoot twoUsers 1 = false ∧
    userIsRoot twoUsers ((credRun (procSetuid (oneProcess ⟨0, 0, 0⟩) 1).1
      [.setresuid 0 0 0, .setuid 0, .setreuid 1 0, .setregid 0 0]).procTable ⟨0, by decide⟩).euid = false :=
  ⟨by decide, by decide, (no_escalation (oneProcess ⟨0, 0, 0⟩) ⟨0, by decide⟩ rfl).2 1 (by decide) (by decide) _⟩

/-! ### `sys_setresuid` beside `proc_setresgid` -/

/-- The process with its user identities in the place of its group identities. -/
def asGids (s : Kernel) : Kernel :=
  match s.currentProc with
  | none => s
  | some i => s.modify i fun p => p.setGids p.uids

def currentUids (s : Kernel) : Option Ids := s.currentProc.map fun i => (s.procTable i).uids
def currentGids (s : Kernel) : Option Ids := s.currentProc.map fun i => (s.procTable i).gids

/-- An argument, or what was there before. -/
def orKeep (x old : Int32) : Int32 := if x ≠ -1 then x else old

/-- **The law of `proc_setresgid`**: `sys_setresuid` succeeds when it does and leaves the same triple; and
`sys_getresuid` after a success reports the arguments, and the former values in the place of -1. -/
structure SetsAsSetresgid (s : Kernel) (ruid euid suid : UInt64) : Prop where
  result : (sysSetresuid s ruid euid suid).2 = 0 ↔
    (procSetresgid (asGids s) (narrow ruid) (narrow euid) (narrow suid)).2 = 0
  ids : currentUids (sysSetresuid s ruid euid suid).1 =
    currentGids (procSetresgid (asGids s) (narrow ruid) (narrow euid) (narrow suid)).1
  reported : (sysSetresuid s ruid euid suid).2 = 0 → ∀ t ∈ currentUids s,
    sysGetresuid (sysSetresuid s ruid euid suid).1 =
      ⟨orKeep (narrow ruid) t.real, orKeep (narrow euid) t.eff, orKeep (narrow suid) t.saved⟩

/-- The real identity is set, or the effective one to another than the real one. -/
def Moves (t : Ids) (real eff : Int32) : Prop := real ≠ -1 ∨ eff ≠ -1 ∧ eff ≠ t.real

/-- The saved identity is to be the effective one, as both are or will be, and where nothing moves it stays. -/
def SavesEffective (t : Ids) (real eff saved : Int32) : Prop :=
  orKeep eff t.eff = orKeep saved t.saved ∧ (Moves t real eff ∨ orKeep saved t.saved = t.saved)

/-- For a caller that is root; the last clause is about a `suid` that is -1 as a `uid_t` but not in all 64 bits. -/
def RootLaw (users : UserDb) (t : Ids) (real eff saved : Int32) (suid : UInt64) : Prop :=
  SavesEffective t real eff saved ∧
    (saved = -1 → suid ≠ 0 - 1 → userIsRoot users (orKeep eff t.eff) = false ∧
      (orKeep real t.real = -1 → orKeep eff t.eff = -1))

/-- For any other caller.  A real identity must be the real or the effective one; with one that the saved identity
would allow, something else must be wrong.  A wrong effective identity is refused without a change only if the real
one does not change. -/
def UserLaw (t : Ids) (real eff saved : Int32) : Prop :=
  if real = -1 ∨ real = t.real ∨ real = t.eff then
    if t.allows eff then t.allows saved ∧ SavesEffective t real eff saved else real = -1 ∨ real = t.real
  else ¬ (real = t.saved ∧ t.allows eff ∧ t.allows saved)

/-- When the two calls do the same. -/
def LawHolds (s : Kernel) (ruid euid suid : UInt64) : Prop :=
  ∀ i ∈ s.currentProc,
    if procGetCurrentPid s < 0 then
      userIsRoot s.users (s.procTable i).euid = false ∧ ¬ ((s.procTable i).uids.allows (narrow ruid) ∧
        (s.procTable i).uids.allows (narrow euid) ∧ (s.procTable i).uids.allows (narrow suid))
    else if userIsRoot s.users (s.procTable i).euid then
      RootLaw s.users (s.procTable i).uids (narrow ruid) (narrow euid) (narrow suid) suid
    else UserLaw (s.procTable i).uids (narrow ruid) (narrow euid) (narrow suid)

theorem userIsRoot_minus_one (users : UserDb) : userIsRoot users (-1) = false := by
  have hnone : users.user? (-1) = none := dif_neg (by decide)
  rw [userIsRoot, hnone]

/-- A caller that is not root, as a matter of triples: all cases are equalities among six identities. -/
theorem userLaw_iff (t : Ids) (a b c : Int32) :
    UserLaw t a b c ↔
      ((t.setReal false a b).2 = 0 ↔ (t.setRes false a b c).2 = 0) ∧
      (t.setReal false a b).1 = (t.setRes false a b c).1 ∧
      ((t.setReal false a b).2 = 0 → (t.setReal false a b).1.eff = orKeep c t.saved) := by
  obtain ⟨r, e, s⟩ := t
  have hne : (-1 : Int32) ≠ 0 := by decide
  simp only [UserLaw, SavesEffective, Moves, orKeep, Ids.setReal, Ids.setRes, Ids.allows]
  grind

theorem setReal_result (root : Bool) (t : Ids) (a b : Int32) :
    (if (t.setReal root a b).2 < 0 then serror eperm else 0) = 0 ↔ (t.setReal root a b).2 = 0 := by
  have hperm : serror eperm ≠ 0 := by decide
  have hneg : (-1 : Int32) < 0 := by decide
  have htwo : (t.setReal root a b).2 = 0 ∨ (t.setReal root a b).2 = -1 := by
    simp only [Ids.setReal]
    by_cases hreal : a ≠ -1 ∧ root = false ∧ a ≠ t.real ∧ a ≠ t.eff
    · rw [if_pos hreal]
      exact .inr rfl
    · rw [if_neg hreal]
      generalize (if a ≠ -1 then { t with real := a } else t) = t₁
      by_cases heff : b ≠ -1 ∧ root = false ∧ b ≠ t.real ∧ b ≠ t₁.eff ∧ b ≠ t₁.saved
      · rw [if_pos heff]
        exact .inr rfl
      · rw [if_neg heff]
        exact .inl rfl
  rcases htwo with h | h
  · simp [h]
  · simp [h, hperm]

/-- A success of `proc_setresgid`. -/
theorem setRes_accepted {root : Bool} {t : Ids} {a b c : Int32} (h : (t.setRes root a b c).2 = 0) :
    (t.setRes root a b c).1 = ⟨orKeep a t.real, orKeep b t.eff, orKeep c t.saved⟩ := by
  have hne : (-1 : Int32) ≠ 0 := by decide
  simp only [Ids.setRes] at h ⊢
  split at h
  · exact absurd h hne
  · next hno => rw [if_neg hno]; rfl

/-- What root's call leaves of a triple. -/
def rootSets (users : UserDb) (t : Ids) (a b c : Int32) (suid : UInt64) : Ids :=
  let t₁ := (t.setReal true a b).1
  if suid ≠ 0 - 1 then (t₁.setEff (userIsRoot users t₁.eff) c).1 else t₁

theorem setReal_root (t : Ids) (a b : Int32) :
    t.setReal true a b =
      (⟨orKeep a t.real, orKeep b t.eff, if a ≠ -1 ∨ b ≠ -1 ∧ b ≠ t.real then orKeep b t.eff else t.saved⟩, 0) := by
  obtain ⟨r, e, s⟩ := t
  simp only [Ids.setReal, orKeep]
  grind

/-- A caller that is root. -/
theorem rootLaw_iff (users : UserDb) (t : Ids) (a b c : Int32) {suid : UInt64} (hc : suid = 0 - 1 → c = -1) :
    RootLaw users t a b c suid ↔
      rootSets users t a b c suid = (t.setRes true a b c).1 ∧ (rootSets users t a b c suid).eff = orKeep c t.saved := by
  obtain ⟨r, e, s⟩ := t
  have hroot := userIsRoot_minus_one users
  simp only [rootSets, setReal_root, RootLaw, SavesEffective, Moves, Ids.setRes, Ids.setEff]
  by_cases hsuid : suid = 0 - 1
  · have hc := hc hsuid
    simp only [hsuid, hc, orKeep]
    grind
  · simp only [ne_eq, hsuid, not_false_eq_true, if_true, orKeep]
    grind

section Law

variable {s : Kernel} {i : Slot}

theorem procSetresgid_asGids (hi : s.currentProc = some i) (a b c : Int32) :
    (procSetresgid (asGids s) a b c).2 =
        ((s.procTable i).uids.setRes (userIsRoot s.users (s.procTable i).euid) a b c).2 ∧
      currentGids (procSetresgid (asGids s) a b c).1 =
        some ((s.procTable i).uids.setRes (userIsRoot s.users (s.procTable i).euid) a b c).1 := by
  have hgids : asGids s = s.modify i fun p => p.setGids p.uids := by rw [asGids, hi]
  have hcur : (s.modify i fun p => p.setGids p.uids).currentProc = some i := hi
  have husers : (s.modify i fun p => p.setGids p.uids).users = s.users := rfl
  have heuid : ((s.procTable i).setGids (s.procTable i).uids).euid = (s.procTable i).euid := rfl
  rw [hgids]
  simp only [procSetresgid, onGids, hcur, Kernel.modify_same, Pcb.gids_setGids, husers, heuid, currentGids,
    Kernel.modify_currentProc, Option.map_some, and_self]

theorem onUids_current (hi : s.currentProc = some i) (f : Bool → Ids → Ids × Int32) :
    onUids s f = (s.modify i fun p => p.setUids (f (userIsRoot s.users (s.procTable i).euid) (s.procTable i).uids).1,
      (f (userIsRoot s.users (s.procTable i).euid) (s.procTable i).uids).2) := by
  simp only [onUids, hi]

theorem sysGetresuid_current (hi : s.currentProc = some i) :
    sysGetresuid s = ⟨(s.procTable i).uids.real, (s.procTable i).uids.eff, (s.procTable i).uids.eff⟩ := by
  simp only [sysGetresuid, procGetuid, procGeteuid, hi, Option.elim_some]
  rfl

/-- `sys_setresuid` by a process with a PID that is not negative as an `int`. -/
theorem sysSetresuid_user (hi : s.currentProc = some i) (hpid : ¬ procGetCurrentPid s < 0)
    (hroot : userIsRoot s.users (s.procTable i).euid = false) (ruid euid suid : UInt64) :
    sysSetresuid s ruid euid suid =
      (s.modify i fun p => p.setUids ((s.procTable i).uids.setReal false (narrow ruid) (narrow euid)).1,
        if ((s.procTable i).uids.setReal false (narrow ruid) (narrow euid)).2 < 0 then serror eperm else 0) := by
  have heuid : procGeteuid s = (s.procTable i).euid := by rw [procGeteuid, hi]; rfl
  simp only [sysSetresuid, if_neg hpid, heuid, hroot, if_true, procSetreuid, onUids_current hi]

theorem sysSetresuid_root (hi : s.currentProc = some i) (hpid : ¬ procGetCurrentPid s < 0)
    (hroot : userIsRoot s.users (s.procTable i).euid = true) (ruid euid suid : UInt64) :
    (sysSetresuid s ruid euid suid).2 = 0 ∧
      (sysSetresuid s ruid euid suid).1.currentProc = some i ∧
      ((sysSetresuid s ruid euid suid).1.procTable i).uids =
        rootSets s.users (s.procTable i).uids (narrow ruid) (narrow euid) (narrow suid) suid := by
  have heuid : procGeteuid s = (s.procTable i).euid := by rw [procGeteuid, hi]; rfl
  simp only [sysSetresuid, if_neg hpid, heuid, hroot, Bool.true_eq_false, if_false, procSetreuid, onUids_current hi,
    rootSets]
  generalize hs : (s.modify i fun p => p.setUids ((s.procTable i).uids.setReal true (narrow ruid) (narrow euid)).1) = s₁
  have hcur : s₁.currentProc = some i := by
    rw [← hs]
    exact hi
  have huids : (s₁.procTable i).uids = ((s.procTable i).uids.setReal true (narrow ruid) (narrow euid)).1 := by
    rw [← hs, Kernel.modify_same, Pcb.uids_setUids]
  have husers : s₁.users = s.users := by
    rw [← hs]
    rfl
  have heff : (s₁.procTable i).euid = (s₁.procTable i).uids.eff := rfl
  refine ⟨trivial, ?_, ?_⟩
  · split
    · rw [procSeteuid, onUids_current hcur]
      exact hcur
    · exact hcur
  · split
    · rw [procSeteuid, onUids_current hcur]
      simp only [Kernel.modify_same, Pcb.uids_setUids]
      rw [heff, husers, huids]
    · exact huids

/-- The law, for a process that there is. -/
theorem setsAsSetresgid_iff (hi : s.currentProc = some i) (ruid euid suid : UInt64) {x : Kernel × UInt64}
    (hx : sysSetresuid s ruid euid suid = x) (hcur : x.1.currentProc = some i) {t g : Ids} {res : Int32}
    (ht : (s.procTable i).uids = t)
    (hg : t.setRes (userIsRoot s.users (s.procTable i).euid) (narrow ruid) (narrow euid) (narrow suid) = (g, res)) :
    SetsAsSetresgid s ruid euid suid ↔ (x.2 = 0 ↔ res = 0) ∧ (x.1.procTable i).uids = g ∧
      (x.2 = 0 → (x.1.procTable i).uids.real = orKeep (narrow ruid) t.real ∧
        (x.1.procTable i).uids.eff = orKeep (narrow euid) t.eff ∧
        (x.1.procTable i).uids.eff = orKeep (narrow suid) t.saved) := by
  obtain ⟨hresult, hids⟩ := procSetresgid_asGids hi (narrow ruid) (narrow euid) (narrow suid)
  have huids : currentUids s = some t := by
    rw [currentUids, hi, Option.map_some, ht]
  have huids' : currentUids x.1 = some (x.1.procTable i).uids := by
    rw [currentUids, hcur, Option.map_some]
  have hreport := sysGetresuid_current hcur
  rw [ht, hg] at hresult hids
  constructor
  · rintro ⟨h₁, h₂, h₃⟩
    rw [hx, hresult] at h₁
    rw [hx, hids, huids'] at h₂
    rw [hx] at h₃
    refine ⟨h₁, Option.some.inj h₂, fun h0 => ?_⟩
    have := h₃ h0 t huids
    rw [hreport, Ids.mk.injEq] at this
    exact this
  · rintro ⟨h₁, h₂, h₃⟩
    refine ⟨?_, ?_, fun h0 t' ht' => ?_⟩
    · rw [hx, hresult]
      exact h₁
    · rw [hx, hids, huids', h₂]
    · rw [huids] at ht'
      cases ht'
      rw [hx] at h0 ⊢
      rw [hreport, Ids.mk.injEq]
      exact h₃ h0

/-- **`sys_setresuid` keeps the law of `proc_setresgid` just in these cases.** -/
theorem setresuid_as_setresgid_iff (s : Kernel) (ruid euid suid : UInt64) :
    SetsAsSetresgid s ruid euid suid ↔ LawHolds s ruid euid suid := by
  have hesrch : serror esrch ≠ 0 := by decide
  have hne : (-1 : Int32) ≠ 0 := by decide
  cases hi : s.currentProc with
  | none =>
      have hpid : procGetCurrentPid s < 0 := by
        rw [procGetCurrentPid, hi]
        exact (by decide : (-1 : Int32) < 0)
      have hset : procSetresgid (asGids s) (narrow ruid) (narrow euid) (narrow suid) = (s, -1) := by
        have hgids : asGids s = s := by rw [asGids, hi]
        rw [hgids]
        simp only [procSetresgid, onGids, hi]
      have hres : sysSetresuid s ruid euid suid = (s, serror esrch) := by rw [sysSetresuid, if_pos hpid]
      refine ⟨fun _ => by simp [LawHolds, hi], fun _ => ⟨?_, ?_, ?_⟩⟩
      · rw [hset, hres]
        exact ⟨fun h => absurd h hesrch, fun h => absurd h hne⟩
      · rw [hset, hres]
        simp only [currentUids, currentGids, hi, Option.map_none]
      · rw [hres]
        exact fun h => absurd h hesrch
  | some i =>
      have hlaw : LawHolds s ruid euid suid ↔
          if procGetCurrentPid s < 0 then
            userIsRoot s.users (s.procTable i).euid = false ∧ ¬ ((s.procTable i).uids.allows (narrow ruid) ∧
              (s.procTable i).uids.allows (narrow euid) ∧ (s.procTable i).uids.allows (narrow suid))
          else if userIsRoot s.users (s.procTable i).euid then
            RootLaw s.users (s.procTable i).uids (narrow ruid) (narrow euid) (narrow suid) suid
          else UserLaw (s.procTable i).uids (narrow ruid) (narrow euid) (narrow suid) := by
        rw [LawHolds, hi]
        simp only [Option.mem_def, Option.some.injEq, forall_eq']
      rw [hlaw]
      generalize ht : (s.procTable i).uids = t
      by_cases hpid : procGetCurrentPid s < 0
      · have hres : sysSetresuid s ruid euid suid = (s, serror esrch) := by rw [sysSetresuid, if_pos hpid]
        rw [if_pos hpid]
        by_cases h : userIsRoot s.users (s.procTable i).euid = false ∧
            ¬ (t.allows (narrow ruid) ∧ t.allows (narrow euid) ∧ t.allows (narrow suid))
        · rw [setsAsSetresgid_iff hi ruid euid suid hres hi ht (if_pos h)]
          exact ⟨fun _ => h, fun _ => ⟨⟨fun h0 => absurd h0 hesrch, fun h0 => absurd h0 hne⟩, ht,
            fun h0 => absurd h0 hesrch⟩⟩
        · rw [setsAsSetresgid_iff hi ruid euid suid hres hi ht (if_neg h)]
          exact ⟨fun h' => absurd (h'.1.mpr rfl) hesrch, fun h' => absurd h' h⟩
      · rw [if_neg hpid]
        cases hroot : userIsRoot s.users (s.procTable i).euid with
        | true =>
            obtain ⟨hzero, hcur, hids⟩ := sysSetresuid_root hi hpid hroot ruid euid suid
            have hc : suid = 0 - 1 → narrow suid = -1 := by
              rintro rfl
              rfl
            rw [setsAsSetresgid_iff hi ruid euid suid rfl hcur ht Prod.mk.eta.symm, if_pos rfl, rootLaw_iff _ _ _ _ _ hc, hzero, hids, ht,
              hroot]
            constructor
            · exact fun h => ⟨h.2.1, (h.2.2 rfl).2.2⟩
            · refine fun h => ⟨⟨fun _ => rfl, fun _ => rfl⟩, h.1, fun _ => ⟨?_, ?_, h.2⟩⟩
              · rw [h.1]
                rfl
              · rw [h.1]
                rfl
        | false =>
            have hres := sysSetresuid_user hi hpid hroot ruid euid suid
            rw [ht] at hres
            rw [if_neg Bool.false_ne_true, setsAsSetresgid_iff hi ruid euid suid hres hi ht Prod.mk.eta.symm, userLaw_iff,
              hroot]
            have hids : ((s.modify i fun p => p.setUids (t.setReal false (narrow ruid) (narrow euid)).1).procTable i).uids =
                (t.setReal false (narrow ruid) (narrow euid)).1 := by
              rw [Kernel.modify_same, Pcb.uids_setUids]
            simp only [hids, setReal_result]
            constructor
            · exact fun h => ⟨h.1, h.2.1, fun h0 => (h.2.2 h0).2.2⟩
            · intro h
              refine ⟨h.1, h.2.1, fun h0 => ?_⟩
              have hset := h.2.1.trans (setRes_accepted (h.1.mp h0))
              exact ⟨by rw [hset], by rw [hset], h.2.2 h0⟩

end Law

/-- Root that asks for a saved identity of its own gets it as the effective one and keeps the saved one it had. -/
theorem saved_made_effective :
    currentUids (sysSetresuid (oneProcess ⟨0, 0, 0⟩) 0 0 1).1 = some ⟨0, 1, 0⟩ ∧
      currentGids (procSetresgid (asGids (oneProcess ⟨0, 0, 0⟩)) 0 0 1).1 = some ⟨0, 0, 1⟩ ∧
      ¬ SetsAsSetresgid (oneProcess ⟨0, 0, 0⟩) 0 0 1 := by
  have huids : currentUids (sysSetresuid (oneProcess ⟨0, 0, 0⟩) 0 0 1).1 = some ⟨0, 1, 0⟩ := by decide
  have hgids : currentGids (procSetresgid (asGids (oneProcess ⟨0, 0, 0⟩)) 0 0 1).1 = some ⟨0, 0, 1⟩ := by decide
  refine ⟨huids, hgids, fun h => ?_⟩
  have hids := h.ids
  rw [huids] at hids
  exact absurd (hids.trans hgids) (by decide)

/-! ### Refused calls -/

/-- A call, and whether it fails. -/
def credCall (s : Kernel) : CredOp → Kernel × Bool
  | .setuid uid => let r := sysSetuid s uid; (r.1, r.2 != 0)
  | .seteuid uid => let r := sysSeteuid s uid; (r.1, r.2 != 0)
  | .setreuid ruid euid => let r := sysSetreuid s ruid euid; (r.1, r.2 != 0)
  | .setresuid ruid euid suid => let r := sysSetresuid s ruid euid suid; (r.1, r.2 != 0)
  | .setgid gid => let r := sysSetgid s gid; (r.1, r.2 != 0)
  | .setegid gid => let r := procSetegid s gid; (r.1, r.2 != 0)
  | .setregid rgid egid => let r := sysSetregid s rgid egid; (r.1, r.2 != 0)
  | .setresgid rgid egid sgid => let r := sysSetresgid s rgid egid sgid; (r.1, r.2 != 0)

/-- **All or nothing**: a call that fails leaves all identities of every process. -/
def AllOrNothing (s : Kernel) (o : CredOp) : Prop :=
  (credCall s o).2 = true → ∀ i, ((credCall s o).1.procTable i).uids = (s.procTable i).uids ∧
    ((credCall s o).1.procTable i).gids = (s.procTable i).gids

/-- The effective identity is asked for as the real one, which it is not yet, and for the effective one another that the
process does not have. -/
def Ids.Splits (t : Ids) (real eff : Int32) : Prop :=
  real ≠ -1 ∧ real ≠ t.real ∧ real = t.eff ∧ eff ≠ -1 ∧ ¬ t.Has eff

/-- The current process is not root, and its triple is split. -/
def SplitsCurrent (s : Kernel) (ids : Pcb → Ids) (real eff : Int32) : Prop :=
  ∃ i, s.currentProc = some i ∧ userIsRoot s.users (s.procTable i).euid = false ∧ (ids (s.procTable i)).Splits real eff

/-- The first argument is accepted and the second is not. -/
def HalfAccepted (s : Kernel) : CredOp → Prop
  | .setreuid ruid euid => SplitsCurrent s Pcb.uids (narrow ruid) (narrow euid)
  | .setresuid ruid euid _ => 0 ≤ procGetCurrentPid s ∧ SplitsCurrent s Pcb.uids (narrow ruid) (narrow euid)
  | .setregid rgid egid => SplitsCurrent s Pcb.gids (narrow rgid) (narrow egid)
  | _ => False

namespace Ids

variable {root : Bool} {t : Ids} {id a b c : Int32}

theorem set_refused (h : (t.set root id).2 ≠ 0) : (t.set root id).1 = t := by
  simp only [set] at h ⊢
  split at h
  · exact absurd rfl h
  split at h
  · exact absurd rfl h
  · next hroot hid => rw [if_neg hroot, if_neg hid]

theorem setEff_refused (h : (t.setEff root id).2 ≠ 0) : (t.setEff root id).1 = t := by
  simp only [setEff] at h ⊢
  split at h
  · exact absurd rfl h
  split at h
  · exact absurd rfl h
  · next hroot hid => rw [if_neg hroot, if_neg hid]

theorem setRes_refused (h : (t.setRes root a b c).2 ≠ 0) : (t.setRes root a b c).1 = t := by
  simp only [setRes] at h ⊢
  split at h
  · next hno => rw [if_pos hno]
  · exact absurd rfl h

/-- What is left when the second argument is refused. -/
theorem setReal_split (h : t.Splits a b) : t.setReal false a b = ({ t with real := a }, -1) := by
  obtain ⟨ha, -, heff, hb, hno⟩ := h
  have hhas : b ≠ t.real ∧ b ≠ t.eff ∧ b ≠ t.saved := by
    simp only [Has, not_or] at hno
    exact hno
  simp only [setReal]
  rw [if_neg fun hc => hc.2.2.2 heff, if_pos ha, if_pos ⟨hb, trivial, hhas.1, hhas.2.1, hhas.2.2⟩]

theorem setReal_refused (h : (t.setReal root a b).2 ≠ 0) (hno : ¬ (root = false ∧ t.Splits a b)) :
    (t.setReal root a b).1 = t := by
  simp only [setReal] at h ⊢
  split at h
  · next hfirst => rw [if_pos hfirst]
  · next hfirst =>
      rw [if_neg hfirst]
      by_cases ha : a = -1
      · -- the first argument asks for nothing
        rw [if_neg (not_not.mpr ha)] at h ⊢
        split at h
        · next hsecond => rw [if_pos hsecond]
        · exact absurd rfl h
      · rw [if_pos ha] at h ⊢
        split at h
        · next hsecond =>
            obtain ⟨hb, hroot, hreal, heff, hsaved⟩ := hsecond
            rw [if_pos ⟨hb, hroot, hreal, heff, hsaved⟩]
            -- what was accepted is the real identity there was, or the triple is split
            by_cases hsame : a = t.real
            · rw [hsame]
            · have hmine : a = t.eff := by
                by_contra hne
                exact hfirst ⟨ha, hroot, hsame, hne⟩
              exact absurd ⟨hroot, ha, hsame, hmine, hb, by simp only [Has, not_or]; exact ⟨hreal, heff, hsaved⟩⟩ hno
        · exact absurd rfl h

end Ids

section Refused

variable {s : Kernel} {f : Bool → Ids → Ids × Int32} {i : Slot}

theorem orPerm_fails (r : Kernel × Int32) : ((orPerm r).2 != 0) = (r.2 != 0) := by
  simp only [orPerm]
  split
  · next h => rw [h]; rfl
  · next h => rw [bne_iff_ne.mpr h]; rfl

/-- A refused change of user identities that leaves the triple leaves everything. -/
theorem onUids_kept (h : ∀ i, s.currentProc = some i →
      (f (userIsRoot s.users (s.procTable i).euid) (s.procTable i).uids).2 ≠ 0 →
        (f (userIsRoot s.users (s.procTable i).euid) (s.procTable i).uids).1 = (s.procTable i).uids)
    (hfail : (onUids s f).2 ≠ 0) (j : Slot) :
    ((onUids s f).1.procTable j).uids = (s.procTable j).uids ∧
      ((onUids s f).1.procTable j).gids = (s.procTable j).gids := by
  cases hi : s.currentProc with
  | none =>
      rw [onUids, hi]
      exact ⟨rfl, rfl⟩
  | some i =>
      simp only [onUids, hi] at hfail ⊢
      have hkept := h i hi hfail
      by_cases hj : j = i
      · rw [hj, Kernel.modify_same, Pcb.uids_setUids, Pcb.gids_setUids, hkept]
        exact ⟨rfl, rfl⟩
      · rw [Kernel.modify_other s _ hj]
        exact ⟨rfl, rfl⟩

theorem onGids_kept (h : ∀ i, s.currentProc = some i →
      (f (userIsRoot s.users (s.procTable i).euid) (s.procTable i).gids).2 ≠ 0 →
        (f (userIsRoot s.users (s.procTable i).euid) (s.procTable i).gids).1 = (s.procTable i).gids)
    (hfail : (onGids s f).2 ≠ 0) (j : Slot) :
    ((onGids s f).1.procTable j).uids = (s.procTable j).uids ∧
      ((onGids s f).1.procTable j).gids = (s.procTable j).gids := by
  cases hi : s.currentProc with
  | none =>
      rw [onGids, hi]
      exact ⟨rfl, rfl⟩
  | some i =>
      simp only [onGids, hi] at hfail ⊢
      have hkept := h i hi hfail
      by_cases hj : j = i
      · rw [hj, Kernel.modify_same, Pcb.uids_setGids, Pcb.gids_setGids, hkept]
        exact ⟨rfl, rfl⟩
      · rw [Kernel.modify_other s _ hj]
        exact ⟨rfl, rfl⟩

/-- The user identities that are split have changed. -/
theorem onUids_split {a b : Int32} (h : SplitsCurrent s Pcb.uids a b) :
    (onUids s fun root t => t.setReal root a b).2 = -1 ∧
      ∃ i, ((onUids s fun root t => t.setReal root a b).1.procTable i).uids ≠ (s.procTable i).uids := by
  obtain ⟨i, hi, hroot, hsplit⟩ := h
  simp only [onUids, hi, hroot, Ids.setReal_split hsplit]
  refine ⟨trivial, i, fun he => hsplit.2.1 ?_⟩
  rw [Kernel.modify_same, Pcb.uids_setUids] at he
  exact congrArg Ids.real he

theorem onGids_split {a b : Int32} (h : SplitsCurrent s Pcb.gids a b) :
    (onGids s fun root t => t.setReal root a b).2 = -1 ∧
      ∃ i, ((onGids s fun root t => t.setReal root a b).1.procTable i).gids ≠ (s.procTable i).gids := by
  obtain ⟨i, hi, hroot, hsplit⟩ := h
  simp only [onGids, hi, hroot, Ids.setReal_split hsplit]
  refine ⟨trivial, i, fun he => hsplit.2.1 ?_⟩
  rw [Kernel.modify_same, Pcb.gids_setGids] at he
  exact congrArg Ids.real he

theorem setreuid_kept {a b : Int32} (h : ¬ SplitsCurrent s Pcb.uids a b) (hfail : (procSetreuid s a b).2 ≠ 0) (j : Slot) :
    ((procSetreuid s a b).1.procTable j).uids = (s.procTable j).uids ∧
      ((procSetreuid s a b).1.procTable j).gids = (s.procTable j).gids :=
  onUids_kept (fun i hi hr => Ids.setReal_refused hr fun hc => h ⟨i, hi, hc⟩) hfail j

end Refused

/-- **Credential calls are all-or-nothing** if and only if no call takes its first argument and refuses its second. -/
theorem all_or_nothing_iff (s : Kernel) (o : CredOp) : AllOrNothing s o ↔ ¬ HalfAccepted s o := by
  have hfail : ∀ {r : Kernel × Int32}, ((orPerm r).2 != 0) = true → r.2 ≠ 0 := by
    intro r h
    rw [orPerm_fails] at h
    exact bne_iff_ne.mp h
  cases o with
  | setuid uid => exact iff_of_true (fun h => onUids_kept (fun _ _ => Ids.set_refused) (hfail h)) not_false
  | seteuid uid => exact iff_of_true (fun h => onUids_kept (fun _ _ => Ids.setEff_refused) (hfail h)) not_false
  | setgid gid => exact iff_of_true (fun h => onGids_kept (fun _ _ => Ids.set_refused) (hfail h)) not_false
  | setegid gid => exact iff_of_true (fun h => onGids_kept (fun _ _ => Ids.setEff_refused) (bne_iff_ne.mp h)) not_false
  | setresgid rgid egid sgid =>
      exact iff_of_true (fun h => onGids_kept (fun _ _ => Ids.setRes_refused) (hfail h)) not_false
  | setreuid ruid euid =>
      constructor
      · intro hall hsplit
        obtain ⟨hres, i, hne⟩ := onUids_split hsplit
        refine hne (hall ?_ i).1
        exact (orPerm_fails _).trans (by rw [procSetreuid, hres]; rfl)
      · exact fun hno h => setreuid_kept hno (hfail h)
  | setregid rgid egid =>
      constructor
      · intro hall hsplit
        obtain ⟨hres, i, hne⟩ := onGids_split hsplit
        refine hne (hall ?_ i).2
        exact (orPerm_fails _).trans (by rw [procSetregid, hres]; rfl)
      · exact fun hno h => onGids_kept (fun i hi hr => Ids.setReal_refused hr fun hc => hno ⟨i, hi, hc⟩) (hfail h)
  | setresuid ruid euid suid =>
      simp only [AllOrNothing, HalfAccepted, credCall, sysSetresuid]
      by_cases hpid : procGetCurrentPid s < 0
      · rw [if_pos hpid]
        exact iff_of_true (fun _ i => ⟨rfl, rfl⟩) fun h => absurd hpid (Int32.not_lt.mpr h.1)
      rw [if_neg hpid]
      by_cases hroot : userIsRoot s.users (procGeteuid s) = false
      · rw [if_pos hroot]
        constructor
        · rintro hall ⟨-, hsplit⟩
          obtain ⟨hres, i, hne⟩ := onUids_split hsplit
          refine hne (hall ?_ i).1
          rw [procSetreuid, hres]
          rfl
        · intro hno h
          refine setreuid_kept (fun hc => hno ⟨Int32.not_lt.mp hpid, hc⟩) fun h0 => ?_
          rw [h0] at h
          cases h
      · rw [if_neg hroot]
        refine iff_of_true (fun h => by cases h) ?_
        rintro ⟨-, i, hi, hnot, -⟩
        refine hroot ?_
        rw [procGeteuid, hi]
        exact hnot

/-- A process with real user 1 and effective user 2 that asks for 2 and 3 is refused, and has real user 2. -/
theorem refused_half_done :
    (sysSetreuid (oneProcess ⟨1, 2, 1⟩) 2 3).2 = serror eperm ∧
      currentUids (sysSetreuid (oneProcess ⟨1, 2, 1⟩) 2 3).1 = some ⟨2, 2, 1⟩ ∧
      ¬ AllOrNothing (oneProcess ⟨1, 2, 1⟩) (.setreuid 2 3) := by
  have herr : (sysSetreuid (oneProcess ⟨1, 2, 1⟩) 2 3).2 = serror eperm := by decide
  have hids : currentUids (sysSetreuid (oneProcess ⟨1, 2, 1⟩) 2 3).1 = some ⟨2, 2, 1⟩ := by decide
  refine ⟨herr, hids, fun hall => ?_⟩
  have hkept := (hall (by decide) ⟨0, by decide⟩).1
  exact absurd hkept (by decide)

end Blackmount.Proc
