import Blackmount.Proc.Effects
import Blackmount.Proc.Calm

/-!
# Proc — dead processes stay dead

`proc_block` and `proc_unblock` assign the state of whatever slot `proc_find_index` finds, and the
console and the sockets call them with PIDs they remembered earlier; `proc_terminate` makes its
slot a zombie and may wake the parent.  So a dead slot can come back: PID 0 is the PID of every
unused slot, and a zombie keeps its PID.

`Allowed s o` says of an operation, in the state before it, that every PID it hands to `proc_block`
or `proc_unblock`, the process it terminates and the process it blocks directly are alive, and
that no zombie is recorded as the waiting parent of the process that dies.  In a run whose
operations are all allowed, a zombie changes only to UNUSED, when it is reaped, and an unused slot
changes only through creation (`dead_stay_dead`).
-/

namespace Blackmount.Proc
open Blackmount.Net Blackmount.Console Blackmount.Lib

/-! ### The property of a step, and the invariant -/

/-- A zombie stays one or is reaped; an unused slot stays unused or gets a new process. -/
def DeadStay (o : Op) (k k' : Kernel) : Prop :=
  ∀ i : Slot,
    ((k.procTable i).state = .zombie →
      (k'.procTable i).state = .zombie ∨ o.reaps = true ∧ (k'.procTable i).state = .unused) ∧
    ((k.procTable i).state = .unused → o.creates = true ∨ (k'.procTable i).state = .unused)

instance (o : Op) (k k' : Kernel) : Decidable (DeadStay o k k') := by
  delta DeadStay; infer_instance

/-- An unused slot holds no PID and waits for none. -/
def Cleared (k : Kernel) : Prop :=
  ∀ i : Slot, (k.procTable i).state = .unused → (k.procTable i).pid = 0 ∧ (k.procTable i).waitingFor = 0

/-- The dead slots have the same states and PIDs, and new unused slots are cleared. -/
structure Kept (k k' : Kernel) : Prop where
  dead : ∀ i, ¬ Alive k i → (k'.procTable i).state = (k.procTable i).state
  cleared : Cleared k → Cleared k'

variable {k k' a b : Kernel}

theorem Kept.deadStay (h : Kept k k') (o : Op) : DeadStay o k k' := fun i =>
  ⟨fun hz => .inl ((h.dead i (by simp [Alive, hz])).trans hz),
    fun hu => .inr ((h.dead i (by simp [Alive, hu])).trans hu)⟩

theorem Kept.trans {a b c : Kernel} (h₁ : Kept a b) (h₂ : Kept b c) : Kept a c where
  dead i hi := by
    have hb : ¬ Alive b i := by simpa [Alive, h₁.dead i hi] using hi
    exact (h₂.dead i hb).trans (h₁.dead i hi)
  cleared h := h₂.cleared (h₁.cleared h)

theorem Calm.kept (h : Calm k k') : Kept k k' where
  dead := h.dead
  cleared hc i hu := by
    have hi : ¬ Alive k i := fun ha => (h.alive i ha).1 hu
    rw [h.pid, h.waitingFor i hi]
    exact hc i ((h.dead i hi).symm.trans hu)

/-! ### Termination -/

/-- Some alive slots were erased, the others are as they were. -/
def Sunk (k k' : Kernel) : Prop :=
  ∀ i, k'.procTable i = k.procTable i ∨
    Alive k i ∧ k'.procTable i = (k.procTable i).clearHead

theorem Sunk.refl (k : Kernel) : Sunk k k := fun _ => .inl rfl

theorem not_alive_clearHead {i : Slot} {p : Pcb} (h : k.procTable i = p.clearHead) :
    ¬ Alive k i := by simp [Alive, h, Pcb.clearHead]

theorem Sunk.trans {a b c : Kernel} (h₁ : Sunk a b) (h₂ : Sunk b c) : Sunk a c := by
  intro i
  rcases h₁ i with e₁ | ⟨ha, e₁⟩ <;> rcases h₂ i with e₂ | ⟨hb, e₂⟩
  · exact .inl (e₂.trans e₁)
  · exact .inr ⟨by simpa [Alive, e₁] using hb, by rw [e₂, e₁]⟩
  · exact .inr ⟨ha, e₂.trans e₁⟩
  · exact absurd hb (not_alive_clearHead e₁)

theorem pcbRelease_procTable (k : Kernel) (i j : Slot) :
    (pcbRelease k i).procTable j = if j = i then (k.procTable i).clearHead else k.procTable j := by
  unfold pcbRelease
  simp only
  split
  · rw [Kernel.modify_apply]
  · rw [Kernel.modify_apply]; rfl

/-- `proc_kill_children` only erases alive slots. -/
theorem procKillChildren_sunk : ∀ {fuel : Nat} {k k' : Kernel} {pid : UInt32},
    procKillChildren fuel k pid = some k' → Sunk k k'
  | 0, _, _, _, h => by cases h
  | fuel + 1, k, k', pid, h => by
      refine foldlM_rel Sunk.refl Sunk.trans (fun k i k' hb => ?_) h
      simp only at hb
      split at hb
      · cases hb; exact .refl k
      · next hd =>
          split at hb
          · cases hb; exact .refl k
          · obtain ⟨k₁, h₁, rfl⟩ := Option.map_eq_some_iff.mp hb
            have hs := procKillChildren_sunk h₁
            have hi : Alive k i := not_or.mp hd
            intro j
            rw [pcbRelease_procTable]
            split
            · next hj =>
                subst hj
                rcases hs j with e | ⟨-, e⟩
                · exact .inr ⟨hi, by rw [e]⟩
                · exact .inr ⟨hi, by rw [e]; rfl⟩
            · exact hs j

/-- The process in slot `i` may be terminated: it exists, and no zombie waits for it as its
parent. -/
def TerminateOk (k : Kernel) (i : Slot) : Prop :=
  (k.procTable i).state ≠ .unused ∧ (k.procTable i).pid ≠ 0 ∧
    ∀ j, (k.procTable j).state = .zombie →
      ¬ ((k.procTable j).pid = (k.procTable i).ppid ∧ (k.procTable j).waitingFor = (k.procTable i).pid)

instance (k : Kernel) (i : Slot) : Decidable (TerminateOk k i) := by
  delta TerminateOk; infer_instance

/-- A slot with the fields the wake-ups of a termination look at as they were, except that a
BLOCKED one may be READY and wait no more. -/
def Roused (p p' : Pcb) : Prop :=
  p'.pid = p.pid ∧ p'.ppid = p.ppid ∧
    (p'.state = p.state ∧ p'.waitingFor = p.waitingFor ∨ p.state = .blocked ∧ p'.state = .ready)

theorem Roused.refl (p : Pcb) : Roused p p := ⟨rfl, rfl, .inl ⟨rfl, rfl⟩⟩

theorem wakeBlocked_roused (k : Kernel) (v j : Slot) :
    Roused (k.procTable j) ((wakeBlocked k v).procTable j) := by
  unfold wakeBlocked
  split
  · next hb =>
      rw [Kernel.modify_apply]
      split
      · next hj => subst hj; exact ⟨rfl, rfl, .inr ⟨hb, rfl⟩⟩
      · exact .refl _
  · exact .refl _

theorem wakeVforkParent_roused (k : Kernel) (i j : Slot) :
    Roused (k.procTable j) ((wakeVforkParent k i).procTable j) := by
  have leave : ∀ k₁ : Kernel, Roused (k.procTable j) (k₁.procTable j) →
      Roused (k.procTable j) ((k₁.modify i Pcb.leaveVfork).procTable j) := fun k₁ h => by
    rw [Kernel.modify_apply]
    split
    · next hj => subst hj; exact h
    · exact h
  unfold wakeVforkParent
  simp only
  split
  · split
    · exact leave k (.refl _)
    · exact leave _ (wakeBlocked_roused _ _ _)
  · exact .refl _

/-- Waking the waiting parent changes at most the slot whose PID is the dying process's PPID, and
that one only when it waits. -/
theorem wakeWaitingParent_slot (k : Kernel) (i j : Slot) (pid : UInt32)
    (hj : ¬ ((k.procTable j).pid = (k.procTable i).ppid ∧ (k.procTable j).waitingFor = pid)) :
    (wakeWaitingParent k i pid).procTable j = k.procTable j := by
  unfold wakeWaitingParent
  split
  · rfl
  · next q hq =>
      split
      · next hw =>
          have hpid := procFindIndex_pid hq
          have hne : j ≠ q := fun e => hj ⟨e ▸ hpid, e ▸ hw⟩
          unfold procUnblock
          simp only
          split
          · rw [Kernel.modify_other _ _ hne]
          · next r hr =>
              -- the slot found again is the parent's: the PIDs have not changed
              have hr' : procFindIndex k (k.procTable q).pid = some r := by
                rw [procFindIndex_congr (s := k) fun n => by
                  rw [Kernel.modify_apply]; split
                  · next h => rw [h]; rfl
                  · rfl] at hr
                simpa [Pcb.setWaitingFor] using hr
              obtain rfl : q = r := by
                rw [hpid, hq] at hr'
                exact Option.some.inj hr'
              rw [Kernel.modify_other _ _ hne, Kernel.modify_other _ _ hne]
      · rfl

/-- Waking the waiting parent makes no slot UNUSED. -/
theorem wakeWaitingParent_used {i j : Slot} {pid : UInt32}
    (h : (k.procTable j).state ≠ .unused) :
    ((wakeWaitingParent k i pid).procTable j).state ≠ .unused := by
  have hmod : ∀ k₁ : Kernel, ∀ q : Slot, ∀ f : Pcb → Pcb, (∀ p, p.state ≠ .unused → (f p).state ≠ .unused) →
      (k₁.procTable j).state ≠ .unused → ((k₁.modify q f).procTable j).state ≠ .unused := by
    intro k₁ q f hf h₁
    rw [Kernel.modify_apply]
    split
    · next hj => subst hj; exact hf _ h₁
    · exact h₁
  unfold wakeWaitingParent procUnblock
  simp only
  split
  · exact h
  · split
    · split
      · exact hmod _ _ _ (fun _ hp => hp) h
      · exact hmod _ _ _ (fun _ _ => by simp [Pcb.setState]) (hmod _ _ _ (fun _ hp => hp) h)
    · exact h

theorem kept_procTerminate {i : Slot} {code : UInt64} (hok : TerminateOk k i)
    (hc : Cleared k) (h : procTerminate k i code = some k') : Kept k k' := by
  obtain ⟨hi, hpid, hz⟩ := hok
  unfold procTerminate at h
  obtain ⟨k₂, h₂, rfl⟩ := Option.map_eq_some_iff.mp h
  set k₁ := k.modify i fun p => p.die code.toUInt32 with hk₁
  have hs := procKillChildren_sunk h₂
  -- the dying slot is a zombie by now, so it is not among those erased
  have hi₁ : k₁.procTable i = (k.procTable i).die code.toUInt32 := by simp [hk₁]
  have hi₂ : k₂.procTable i = (k.procTable i).die code.toUInt32 := by
    rw [← hi₁]
    exact (hs i).resolve_right fun hr => hr.1.2 (by rw [hi₁]; rfl)
  have hother : ∀ j, j ≠ i → k₁.procTable j = k.procTable j := fun j hj =>
    Kernel.modify_other k _ hj
  have hc₂ : Cleared k₂ := by
    intro j hu
    by_cases hji : j = i
    · subst hji; rw [hi₂] at hu; cases hu
    · rcases hs j with e | ⟨-, e⟩
      · rw [e, hother j hji] at hu ⊢; exact hc j hu
      · rw [e]; exact ⟨rfl, rfl⟩
  have hvf := wakeVforkParent_roused k₂ i
  set k₃ := wakeVforkParent k₂ i
  have hppid : (k₃.procTable i).ppid = (k.procTable i).ppid := by rw [(hvf i).2.1, hi₂]; rfl
  -- a slot that is not BLOCKED after the erasing passes the vfork wake-up unchanged
  have hpass : ∀ j, (k₂.procTable j).state ≠ .blocked →
      (k₃.procTable j).state = (k₂.procTable j).state ∧
        (k₃.procTable j).waitingFor = (k₂.procTable j).waitingFor := fun j hnb =>
    (hvf j).2.2.resolve_right fun hb => hnb hb.1
  -- an unused slot is not the waiting parent: the dying process has a PID
  have hunused : ∀ j, (k₂.procTable j).state = .unused →
      (wakeWaitingParent k₃ i (k.procTable i).pid).procTable j = k₃.procTable j := by
    intro j hu
    refine wakeWaitingParent_slot k₃ i j _ fun hw => hpid ?_
    rw [← hw.2, (hpass j (by simp [hu])).2, (hc₂ j hu).2]
  constructor
  · intro j hj
    have hj₂ : (k₂.procTable j).state = (k.procTable j).state ∧
        (k₂.procTable j).pid = (k.procTable j).pid ∧
        (k₂.procTable j).waitingFor = (k.procTable j).waitingFor := by
      by_cases hji : j = i
      · subst hji
        have hz' : (k.procTable j).state = .zombie := by
          by_contra hn; exact hj ⟨hi, hn⟩
        rw [hi₂, hz']; exact ⟨rfl, rfl, rfl⟩
      · rcases hs j with e | ⟨ha, -⟩
        · rw [e, hother j hji]; exact ⟨rfl, rfl, rfl⟩
        · exact absurd ha (by simpa [Alive, hother j hji] using hj)
    have hnb : (k₂.procTable j).state ≠ .blocked := by
      rw [hj₂.1]; intro e; exact hj (by simp [Alive, e])
    obtain ⟨hst, hwf⟩ := hpass j hnb
    by_cases hu : (k.procTable j).state = .unused
    · rw [hunused j (hj₂.1.trans hu), hst, hj₂.1]
    · have hz' : (k.procTable j).state = .zombie := by
        by_contra hn; exact hj ⟨hu, hn⟩
      rw [wakeWaitingParent_slot k₃ i j _ ?_, hst, hj₂.1]
      rw [(hvf j).1, hppid, hwf, hj₂.2.1, hj₂.2.2]
      exact hz j hz'
  · intro _ j hu
    have hun : (k₂.procTable j).state = .unused := by
      by_contra hn
      refine wakeWaitingParent_used (k := k₃) ?_ hu
      rcases (hvf j).2.2 with e | e
      · rw [e.1]; exact hn
      · rw [e.2]; simp
    rw [hunused j hun, (hvf j).1, (hpass j (by simp [hun])).2]
    exact hc₂ j hun

theorem kept_procKillAs {actor pid : Int32}
    (hok : procCanAct k actor pid = true →
      ∀ i, procFindIndex k pid.toUInt32 = some i → TerminateOk k i)
    (hc : Cleared k) (h : procKillAs k actor pid = some k') : Kept k k' := by
  unfold procKillAs at h
  split at h
  · next ha =>
      split at h
      · cases h; exact (Calm.refl k).kept
      · next i hi => exact kept_procTerminate (hok ha i hi) hc h
  · cases h; exact (Calm.refl k).kept

theorem kept_procExit {code : UInt64}
    (hok : ∀ i, k.currentProc = some i → TerminateOk k i)
    (hc : Cleared k) (h : procExit k code = some k') : Kept k k' := by
  unfold procExit at h
  split at h
  · cases h; exact Calm.kept (.of_table rfl)
  · next i hi =>
      obtain ⟨k₁, h₁, rfl⟩ := Option.map_eq_some_iff.mp h
      refine (kept_procTerminate (hok i hi) hc h₁).trans (Calm.kept ?_)
      simp only
      split
      · next n hn =>
          have hd := calm_dispatch (findNext_ready hn)
          split
          · exact hd
          · split
            · exact hd.before rfl
            · exact hd
      · split <;> exact .of_table rfl

/-! ### Waiting -/

variable {o : Op}

/-- A reap: the slot is erased, whatever it held. -/
theorem deadStay_procReap (ho : o.reaps = true) (k : Kernel) (i : Slot) :
    DeadStay o k (procReap k i) ∧ (Cleared k → Cleared (procReap k i)) := by
  have hslot : ∀ j, (procReap k i).procTable j = k.procTable j ∨
      (procReap k i).procTable j = (k.procTable i).clearHead := fun j => by
    unfold procReap
    rw [pcbRelease_procTable]
    split
    · exact .inr rfl
    · exact .inl rfl
  refine ⟨fun j => ⟨fun hz => ?_, fun hu => .inr ?_⟩, fun hc j hu => ?_⟩
  · rcases hslot j with e | e
    · exact .inl (e ▸ hz)
    · exact .inr ⟨ho, by rw [e]; rfl⟩
  · rcases hslot j with e | e
    · exact e ▸ hu
    · rw [e]; rfl
  · rcases hslot j with e | e
    · rw [e] at hu ⊢; exact hc j hu
    · rw [e]; exact ⟨rfl, rfl⟩

theorem Kept.stays (h : Kept k k') :
    DeadStay o k k' ∧ (Cleared k → Cleared k') := ⟨h.deadStay o, h.cleared⟩

/-- The caller of `proc_wait_pid` is alive when it is to be blocked. -/
def WaitOk (k : Kernel) (pid : UInt32) : Prop :=
  ∀ i, procFindIndex k pid = some i → (k.procTable i).state ≠ .zombie → AliveAt k (procGetCurrentPid k).toUInt32

instance (k : Kernel) (pid : UInt32) : Decidable (WaitOk k pid) := by
  delta WaitOk; infer_instance

variable {frame : Registers}

theorem deadStay_procWaitPid (ho : o.reaps = true) {pid : UInt64}
    (h : WaitOk k pid.toUInt32) :
    DeadStay o k (procWaitPid k pid frame).1 ∧ (Cleared k → Cleared (procWaitPid k pid frame).1) := by
  unfold procWaitPid
  split
  · exact (Calm.refl k).kept.stays
  · next i hi =>
      split
      · next hz =>
          split
          · exact (Calm.refl k).kept.stays
          · next p hp =>
              have hm : Calm k (k.modify p fun q => (q.setWaitingFor pid.toUInt32).setState .blocked) :=
                .modify (fun _ => rfl) (h i hi hz p hp) (by simp [Pcb.setState])
              exact (hm.trans (calm_procYield _ _ _)).kept.stays
      · exact deadStay_procReap ho k i

theorem deadStay_procWaitPidResume (ho : o.reaps = true) (k : Kernel) (pid : UInt32) :
    DeadStay o k (procWaitPidResume k pid).1 ∧ (Cleared k → Cleared (procWaitPidResume k pid).1) := by
  unfold procWaitPidResume
  split
  · exact (Calm.refl k).kept.stays
  · exact deadStay_procReap ho k _

/-! ### Creation -/

/-- Zombies stay zombies, and new unused slots are cleared. -/
structure Grown (k k' : Kernel) : Prop where
  zombie : ∀ i, (k.procTable i).state = .zombie → (k'.procTable i).state = .zombie
  cleared : Cleared k → Cleared k'

namespace Grown

theorem stays (ho : o.creates = true) (h : Grown k k') :
    DeadStay o k k' ∧ (Cleared k → Cleared k') :=
  ⟨fun i => ⟨fun hz => .inl (h.zombie i hz), fun _ => .inl ho⟩, h.cleared⟩

theorem trans {a b c : Kernel} (h₁ : Grown a b) (h₂ : Grown b c) : Grown a c :=
  ⟨fun i hz => h₂.zombie i (h₁.zombie i hz), fun h => h₂.cleared (h₁.cleared h)⟩

theorem of_kept (h : Kept k k') : Grown k k' :=
  ⟨fun i hz => (h.dead i (by simp [Alive, hz])).trans hz, h.cleared⟩

theorem of_table (h : k'.procTable = k.procTable) : Grown k k' :=
  .of_kept (Calm.of_table h).kept

theorem refl (k : Kernel) : Grown k k := of_table rfl

/-- A process is written to a slot that was unused. -/
theorem modify {slot : Slot} {p : Pcb} (hu : (k.procTable slot).state = .unused)
    (hp : p.state = .ready) (hslot : k'.procTable slot = p)
    (hother : ∀ j, j ≠ slot → k'.procTable j = k.procTable j) : Grown k k' := by
  refine ⟨fun j hz => ?_, fun hc j hj => ?_⟩
  · rw [hother j fun e => by rw [e, hu] at hz; cases hz]
    exact hz
  · by_cases e : j = slot
    · rw [e, hslot, hp] at hj; cases hj
    · rw [hother j e] at hj ⊢
      exact hc j hj

end Grown

theorem newPcb_state (users : User.UserDb) (pid : UInt32) (a : CreateArgs) :
    (newPcb users pid a).state = .ready := by
  unfold newPcb
  simp only
  split <;> rfl

theorem grown_procCreateInternal (k : Kernel) (a : CreateArgs) :
    Grown k (procCreateInternal k a).1 := by
  unfold procCreateInternal
  split
  · exact .refl k
  · next slot hs =>
      refine .modify (pcbAllocSlot_unused hs) (newPcb_state k.users k.nextPid a) (by simp)
        fun j hj => ?_
      simp only
      rw [Kernel.modify_other _ _ hj]

theorem grown_procCreateKernelAs (k : Kernel) (owner : Int32) (entry : UInt64)
    (priority parent : UInt32) :
    Grown k (procCreateKernelAs k owner entry priority parent).1 := by
  unfold procCreateKernelAs
  split
  · exact grown_procCreateInternal k _
  · exact .refl k

theorem grown_procCreateUserWith (k : Kernel) (owner : Int32) (entry endMarker : UInt64)
    (priority parent : UInt32) (m : MapAnswers) :
    Grown k (procCreateUserWith k owner entry endMarker priority parent m).1 := by
  unfold procCreateUserWith
  split
  · exact .refl k
  · simp only
    split
    · exact .refl k
    · split
      · exact .refl k
      · split
        · split
          · exact .refl k
          · split
            · exact grown_procCreateInternal k _
            · exact (grown_procCreateInternal k _).trans (.of_table rfl)
        · exact .refl k

theorem vmmCreateAddressSpace_procTable {page : Option Nat} {a : Nat}
    (h : vmmCreateAddressSpace k page = some (a, k')) : k'.procTable = k.procTable := by
  unfold vmmCreateAddressSpace at h
  split at h
  · cases h
  · split at h <;> cases h
    rfl

theorem grown_procCreateUserImageWith (k : Kernel) (owner : Int32) (a : ImageArgs) (m : MapAnswers) :
    Grown k (procCreateUserImageWith k owner a m).1 := by
  unfold procCreateUserImageWith
  split
  · split
    · exact .refl k
    · next space k₁ h₁ =>
        have hk : Grown k k₁ := .of_table (vmmCreateAddressSpace_procTable h₁)
        split
        · split
          · exact hk.trans (.of_table rfl)
          · simp only
            split
            · exact (hk.trans (grown_procCreateInternal k₁ _)).trans (.of_table rfl)
            · exact hk.trans (grown_procCreateInternal k₁ _)
        · exact hk.trans (.of_table rfl)
  · exact .refl k

theorem pcbInitChild_slot (k : Kernel) (slot parent : Slot) (space : Option Nat) (frame : Registers) :
    ((pcbInitChild k slot parent space frame).procTable slot).state = .ready := by
  simp [pcbInitChild, pcbCopyParent]

theorem pcbInitChild_other (k : Kernel) (slot parent : Slot) (space : Option Nat) (frame : Registers)
    {j : Slot} (hj : j ≠ slot) :
    (pcbInitChild k slot parent space frame).procTable j = k.procTable j := by
  unfold pcbInitChild
  simp only
  rw [Kernel.modify_other _ _ hj, Kernel.modify_other _ _ hj]

theorem grown_pcbInitChild {slot parent : Slot} {space : Option Nat}
    (h : pcbAllocSlot k = some slot) : Grown k (pcbInitChild k slot parent space frame) :=
  .modify (pcbAllocSlot_unused h) (pcbInitChild_slot k slot parent space frame) rfl
    fun _ hj => pcbInitChild_other k slot parent space frame hj

theorem grown_procFork (k : Kernel) (frame : Registers) (page : Option Nat) (cloned : Bool) :
    Grown k (procFork k frame page cloned).1 := by
  unfold procFork
  split
  · exact .refl k
  · split
    · exact .refl k
    · next slot hs =>
        split
        · exact grown_pcbInitChild hs
        · split
          · exact .refl k
          · next space k₁ h₁ =>
              have ht := vmmCreateAddressSpace_procTable h₁
              have hk : Grown k k₁ := .of_table ht
              split
              · exact hk.trans (grown_pcbInitChild (by simpa [pcbAllocSlot, ht] using hs))
              · exact hk.trans (.of_table rfl)

/-- The process that makes a vfork child is alive, when there is a slot for the child. -/
def VforkOk (k : Kernel) : Prop :=
  ∀ i, k.currentProc = some i → pcbAllocSlot k ≠ none → Alive k i

instance (k : Kernel) : Decidable (VforkOk k) := by
  delta VforkOk; infer_instance

theorem grown_procVfork (h : VforkOk k) :
    Grown k (procVfork k frame).1 := by
  unfold procVfork
  split
  · exact .refl k
  · next parent hp =>
      split
      · exact .refl k
      · next slot hs =>
          have ha : Alive k parent := h parent hp (by simp [hs])
          have hne : parent ≠ slot := fun e => ha.1 (e ▸ pcbAllocSlot_unused hs)
          have hborn : Grown k (pcbInitChild k slot parent (k.procTable parent).addressSpace frame) :=
            grown_pcbInitChild hs
          set k₁ := pcbInitChild k slot parent (k.procTable parent).addressSpace frame with hk₁
          have hmark : Calm k₁
              (k₁.modify slot fun p => p.setVforkParent (k₁.procTable parent).pid.toInt32) :=
            .modify_rest (fun _ => rfl) (fun _ => rfl) fun _ => rfl
          have ha₁ : Alive k₁ parent := by
            unfold Alive
            rw [hk₁, pcbInitChild_other _ _ _ _ _ hne]
            exact ha
          refine (hborn.trans (.of_kept hmark.kept)).trans (.of_kept (Calm.kept ?_))
          exact .modify (f := fun p => p.awaitVfork k.nextPid frame) (fun _ => rfl)
            (hmark.alive parent ha₁) (by simp [Pcb.awaitVfork])

theorem grown_procCloneVm (k : Kernel) (frame : Registers) (childStack : UInt64) :
    Grown k (procCloneVm k frame childStack).1 := by
  unfold procCloneVm
  split
  · exact .refl k
  · split
    · exact .refl k
    · next slot hs =>
        have hset : ∀ p : Pcb, ∀ q, q = (if childStack ≠ 0 then p.setRsp childStack else p) →
            q.pid = p.pid ∧ q.waitingFor = p.waitingFor ∧ q.state = p.state := by
          rintro p q rfl
          split
          · exact ⟨rfl, rfl, rfl⟩
          · exact ⟨rfl, rfl, rfl⟩
        exact (grown_pcbInitChild hs).trans (.of_kept (Calm.modify_rest (fun p => (hset p _ rfl).1)
          (fun p => (hset p _ rfl).2.1) fun p => (hset p _ rfl).2.2).kept)

theorem calm_setChildStack (k : Kernel) (pid : Int32) (childStack : UInt64) :
    Calm k (setChildStack k pid childStack) := by
  unfold setChildStack
  split
  · split
    · exact .refl k
    · exact .modify_rest (fun _ => rfl) (fun _ => rfl) fun _ => rfl
  · exact .refl k

theorem grown_procClone {flags childStack : UInt64}
    {page : Option Nat} {cloned : Bool} (h : flags &&& cloneVfork ≠ 0 → VforkOk k) :
    Grown k (procClone k frame flags childStack page cloned).1 := by
  unfold procClone
  split
  · next hv => exact (grown_procVfork (h hv)).trans (.of_kept (calm_setChildStack _ _ _).kept)
  · split
    · exact grown_procCloneVm k frame childStack
    · exact (grown_procFork k frame page cloned).trans (.of_kept (calm_setChildStack _ _ _).kept)

/-! ### The machine -/

/-- The operation blocks, wakes and terminates alive processes only: a condition on the state
before it. -/
def Allowed (s : Sys) (o : Op) : Prop :=
  UsesOk AliveAt s o ∧
  match o with
  | .killAs actor pid => procCanAct s.proc actor pid = true →
      ∀ i, procFindIndex s.proc pid.toUInt32 = some i → TerminateOk s.proc i
  | .exit _ => ∀ i, s.proc.currentProc = some i → TerminateOk s.proc i
  | .vfork _ => VforkOk s.proc
  | .clone _ flags _ _ _ => flags &&& cloneVfork ≠ 0 → VforkOk s.proc
  | .waitPid pid _ => WaitOk s.proc pid.toUInt32
  | .waitPidAs actor pid _ =>
      procCanAct s.proc actor pid.toUInt32.toInt32 = true → WaitOk s.proc pid.toUInt32
  | _ => True

instance (s : Sys) (o : Op) : Decidable (Allowed s o) := by
  apply Op.casesOn (motive := fun o => Decidable (Allowed s o)) o <;> intros <;>
    (delta Allowed; infer_instance)

theorem Allowed.clearCalls {s : Sys} (h : Allowed s o) :
    Allowed (Sys.clearCalls s) o := by
  cases o <;> try exact h
  case sockDestroy id =>
      have hsame : ∀ pid, AliveAt s.proc pid → AliveAt { s.proc with destroyCalls := [] } pid :=
        fun _ hp => hp
      exact ⟨fun i hi => ⟨(h.1 i hi).1, (h.1 i hi).2.1, (h.1 i hi).2.2.mono hsame⟩, trivial⟩

theorem Calls.calm (h : Calls AliveAt k k') : Calm k k' := by
  induction h with
  | refl => exact .refl k
  | block _ hp ih => exact ih.trans (calm_procBlock hp)
  | unblock _ hp ih => exact ih.trans (calm_procUnblock hp)
  | yield _ ih => exact ih.trans (calm_procYield _ _ _)

theorem stable_aliveAt : Stable AliveAt := ⟨fun h hp => h.calm.aliveAt hp⟩

theorem stays_resumeAt {s s' : Sys}
    (hok : ResumeOk AliveAt s.net s.proc.point) (h : perform s (.resume frame) = some s') :
    DeadStay (.resume frame) s.proc s'.proc ∧ (Cleared s.proc → Cleared s'.proc) := by
  by_cases hw : ∃ pid, s.proc.point = .waitPid pid
  · obtain ⟨pid, hp⟩ := hw
    simp only [perform, hp, resumeAt] at h
    cases h
    exact deadStay_procWaitPidResume rfl { s.proc with point := .process } pid
  · have hc := calls_resumeAt (P := AliveAt) stable_aliveAt
      (s := s.setProc { s.proc with point := .process }) (fun pid e => hw ⟨pid, e⟩) ?_ h
    · exact (hc.calm.after rfl).kept.stays
    · generalize s.proc.point = point at hok
      cases point <;> exact hok

theorem stays_procWaitPidAs (ho : o.reaps = true) {actor : Int32}
    {pid : UInt64}
    (h : procCanAct k actor pid.toUInt32.toInt32 = true → WaitOk k pid.toUInt32) :
    DeadStay o k (procWaitPidAs k actor pid frame).1 ∧
      (Cleared k → Cleared (procWaitPidAs k actor pid frame).1) := by
  unfold procWaitPidAs
  split
  · next ha => exact deadStay_procWaitPid ho (h ha)
  · exact (Calm.refl k).kept.stays

/-- An operation that creates a process. -/
theorem grown_perform {s s' : Sys} (ho : o.creates = true) (hok : Allowed s o)
    (h : perform s o = some s') : Grown s.proc s'.proc := by
  cases o <;> cases ho <;> cases h
  case createKernel => exact grown_procCreateInternal _ _
  case createKernelAs => exact grown_procCreateKernelAs _ _ _ _ _
  case createUser => exact grown_procCreateUserWith _ _ _ _ _ _ _
  case createUserAs =>
      simp only [Sys.setProc_proc, procCreateUserAs]
      split
      · exact grown_procCreateUserWith _ _ _ _ _ _ _
      · exact .refl _
  case createUserImage => exact grown_procCreateUserImageWith _ _ _ _
  case createUserImageArgv => exact grown_procCreateUserImageWith _ _ _ _
  case createUserImageAs =>
      simp only [Sys.setProc_proc, procCreateUserImageAs]
      split
      · exact grown_procCreateUserImageWith _ _ _ _
      · exact .refl _
  case fork => exact grown_procFork _ _ _ _
  case vfork => exact grown_procVfork hok.2
  case clone => exact grown_procClone hok.2

/-- Every allowed operation of the machine leaves the dead as they are. -/
theorem stays_perform {s s' : Sys} (hc : Cleared s.proc) (hok : Allowed s o)
    (h : perform s o = some s') :
    DeadStay o s.proc s'.proc ∧ (Cleared s.proc → Cleared s'.proc) := by
  by_cases hcr : o.creates = true
  · exact (grown_perform hcr hok h).stays hcr
  by_cases hca : o.onlyCalls = true
  · exact (calls_perform stable_aliveAt hca hok.1 h).calm.kept.stays
  cases o <;> simp only [Op.creates, Op.onlyCalls, not_true_eq_false] at hcr hca
  case exit =>
      obtain ⟨k', hk, rfl⟩ := Option.map_eq_some_iff.mp h
      exact (kept_procExit hok.2 hc hk).stays
  case killAs =>
      obtain ⟨k', hk, rfl⟩ := Option.map_eq_some_iff.mp h
      exact (kept_procKillAs hok.2 hc hk).stays
  case waitPid => cases h; exact deadStay_procWaitPid rfl hok.2
  case waitPidAs => cases h; exact stays_procWaitPidAs rfl hok.2
  case resume frame => exact stays_resumeAt hok.1 h
  case timer => cases h; exact (calm_procScheduleInterrupt _ _).kept.stays
  case startScheduling => cases h; exact (calm_procStartScheduling _).kept.stays

theorem stays_step {s s' : Sys} (hc : Cleared s.proc) (hok : Allowed s o)
    (h : step s o = some s') : DeadStay o s.proc s'.proc ∧ Cleared s'.proc := by
  unfold step at h
  split at h
  · cases h
  · obtain ⟨hd, hc'⟩ := stays_perform (s := Sys.clearCalls s) hc hok.clearCalls h
    exact ⟨hd, hc' hc⟩

theorem cleared_boot (users : User.UserDb) : Cleared (boot users).proc :=
  (grown_procCreateInternal _ _).cleared fun _ _ => ⟨rfl, rfl⟩

/-- **Dead processes stay dead**, in every run whose operations block, wake and terminate alive
processes only. -/
theorem dead_stay_dead (users : User.UserDb) (os : List Op)
    (h : Meets step Allowed (boot users) os) :
    Along step (fun s o s' => DeadStay o s.proc s'.proc) (boot users) os := by
  have hstep : ∀ s o s', Cleared s.proc → Allowed s o → step s o = some s' →
      Cleared s'.proc ∧ DeadStay o s.proc s'.proc :=
    fun _ _ _ hI hC hs => (stays_step hI hC hs).symm
  exact along_of_inv hstep (cleared_boot users) h

/-- User 0 alone, in group 0, which is root's. -/
def rootOnly : User.UserDb where
  users i := { present := i.val == 0 }
  groups i := { present := i.val == 0, perms := .root }

/-- A process is blocked and woken, the idle process dies and is reaped. -/
def deathRun : List Op :=
  [.createKernel 0x1000 0 7, .block 2, .unblock 2, .startScheduling, .exit 0, .waitPid 1 {}]

theorem dead_stay_dead_deathRun : Meets step Allowed (boot rootOnly) deathRun ∧
    Along step (fun s o s' => DeadStay o s.proc s'.proc) (boot rootOnly) deathRun :=
  have h : Meets step Allowed (boot rootOnly) deathRun := by decide +kernel
  ⟨h, dead_stay_dead rootOnly deathRun h⟩

/-- PID 1 reads from the console and blocks; PID 2 kills it; the next line wakes the zombie. -/
def lateWakeRun : List Op :=
  [.createKernel 0x1000 0 7, .consoleInit, .startScheduling, .stdinRead 16 0x400000 {},
    .killAs 0 1, .consoleClear]

/-- Without the condition the dead come back. -/
theorem zombie_woken_by_consoleClear :
    ¬ ∀ users os, Along step (fun s o s' => DeadStay o s.proc s'.proc) (boot users) os := by
  intro h
  have hrun := h rootOnly lateWakeRun
  revert hrun
  decide +kernel

-- PID 0 is the PID of every unused slot
example : ¬ DeadStay (.unblock 0) (boot rootOnly).proc (procUnblock (boot rootOnly).proc 0) := by
  decide +kernel

end Blackmount.Proc
