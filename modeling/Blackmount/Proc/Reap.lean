import Blackmount.Proc.Moves

/-!
# Proc — reaping

`proc_wait_pid` returns the exit code of a process and erases its slot.  When the process is not a
zombie yet the caller blocks and yields; past the yield it looks the PID up again and reaps whatever
slot it finds, without a second look at the state.  So every wake-up of a waiter has to come when
the process it waits for is a zombie, and that process has to stay one until the waiter runs.

The exit codes that wait to be collected are kept beside the machine: `Codes` records, for each
slot, the PID and the exit code of the last termination that no wait has collected.  `Delivers` says
of an operation that reaps that the slot is a zombie with the PID waited for, and that the value
returned is the code recorded for it.

`ReapsDue s o` says of an operation, in the state before it, that it wakes no waiter too early and
revives no zombie that is about to be reaped.  In a run of such operations every reap delivers
(`reaps_deliver`).
-/

namespace Blackmount.Proc
open Blackmount.Net Blackmount.Console Blackmount.Lib

/-! ### The property -/

/-- The slot an operation terminates, with the exit code it stores. -/
def terminated (s : Sys) : Op → Option (Slot × UInt32)
  | .exit code => s.proc.currentProc.map fun i => (i, code.toUInt32)
  | .killAs actor pid =>
      if procCanAct s.proc actor pid then (procFindIndex s.proc pid.toUInt32).map fun i => (i, 1)
      else none
  | _ => none

/-- The slot `proc_wait_pid(pid)` reaps at once. -/
def reapedNow (k : Kernel) (pid : UInt32) : Option Slot :=
  (procFindIndex k pid).filter fun i => (k.procTable i).state == .zombie

/-- The slot at which an operation calls `proc_reap`, with the PID waited for. -/
def reaped (s : Sys) : Op → Option (Slot × UInt32)
  | .waitPid pid _ => (reapedNow s.proc pid.toUInt32).map fun i => (i, pid.toUInt32)
  | .waitPidAs actor pid _ =>
      if procCanAct s.proc actor pid.toUInt32.toInt32 then
        (reapedNow s.proc pid.toUInt32).map fun i => (i, pid.toUInt32)
      else none
  | .resume _ =>
      match s.proc.point with
      | .waitPid pid => (procFindIndex s.proc pid).map fun i => (i, pid)
      | _ => none
  | _ => none

/-- What a wait returns, when it does. -/
def waitResult (s : Sys) : Op → Option UInt64
  | .waitPid pid frame => (procWaitPid s.proc pid frame).2
  | .waitPidAs actor pid frame => (procWaitPidAs s.proc actor pid frame).2
  | .resume _ =>
      match s.proc.point with
      | .waitPid pid => some (procWaitPidResume s.proc pid).2
      | _ => none
  | _ => none

/-- For each slot, the PID and exit code of its last termination, until a wait collects it. -/
abbrev Codes := Slot → Option (UInt32 × UInt32)

/-- What an operation does to the record of exit codes. -/
def record (s : Sys) (g : Codes) (o : Op) : Codes :=
  match terminated s o with
  | some (i, code) => Function.update g i (some ((s.proc.procTable i).pid, code))
  | none =>
      match reaped s o with
      | some (i, _) => Function.update g i none
      | none => g

/-- The machine with the record of exit codes. -/
def recordingStep (s : Sys × Codes) (o : Op) : Option (Sys × Codes) :=
  (step s.1 o).map fun s' => (s', record s.1 s.2 o)

/-- If the operation reaps a slot, that is a zombie with the PID waited for, the slot is free
afterwards, and the wait returns the exit code recorded for that process. -/
def Delivers (s : Sys × Codes) (o : Op) (s' : Sys × Codes) : Prop :=
  ∀ r ∈ reaped s.1 o,
    (s.1.proc.procTable r.1).state = .zombie ∧ (s.1.proc.procTable r.1).pid = r.2 ∧
    (s'.1.proc.procTable r.1).state = .unused ∧
    ∃ c ∈ s.2 r.1, c.1 = r.2 ∧ waitResult s.1 o = some c.2.toUInt64

instance (s : Sys × Codes) (o : Op) (s' : Sys × Codes) : Decidable (Delivers s o s') :=
  -- the quantifiers range over what the step returns, not over all PIDs
  have (r : Slot × UInt32) :
      Decidable (∃ c ∈ s.2 r.1, c.1 = r.2 ∧ waitResult s.1 o = some c.2.toUInt64) :=
    Option.decidableExistsMem _
  Option.decidableForallMem _

/-! ### The invariant -/

/-- Whatever slot `proc_find_index` finds for the PID is a zombie. -/
def Gone (k : Kernel) (pid : UInt32) : Prop :=
  ∀ i, procFindIndex k pid = some i → (k.procTable i).state = .zombie

instance (k : Kernel) (pid : UInt32) : Decidable (Gone k pid) := by
  delta Gone; infer_instance

/-- Slot `w` waits for `pid` and is BLOCKED on it. -/
def HeldFor (k : Kernel) (w : Slot) (pid : UInt32) : Prop :=
  (k.procTable w).state = .blocked ∧ (k.procTable w).waitingFor = pid

instance (k : Kernel) (w : Slot) (pid : UInt32) : Decidable (HeldFor k w pid) := by
  delta HeldFor; infer_instance

/-- If slot `w` is parked in `proc_wait_pid`, it is still held or its process is a zombie. -/
def ParkedWell (k : Kernel) (w : Slot) : Prop :=
  ∀ pid, Alive k w → (k.procTable w).context.point = .waitPid pid →
    pid ≠ 0 ∧ (HeldFor k w pid ∨ Gone k pid)

structure Reapable (k : Kernel) : Prop where
  here : ∀ pid, k.point = .waitPid pid → pid ≠ 0 ∧ Gone k pid
  parked : ∀ w, k.currentProc ≠ some w → ParkedWell k w
  enabled : k.currentProc ≠ none → k.schedulingEnabled = true

/-- A process will reap what it finds for `pid` when it next runs. -/
def Due (k : Kernel) (pid : UInt32) : Prop :=
  k.point = .waitPid pid ∨ ∃ w, k.currentProc ≠ some w ∧ Alive k w ∧
    (k.procTable w).context.point = .waitPid pid ∧ ¬ HeldFor k w pid

instance (k : Kernel) (pid : UInt32) : Decidable (Due k pid) := by
  delta Due; infer_instance

variable {k k' : Kernel} {pid : UInt32}

theorem Reapable.due (h : Reapable k) (hd : Due k pid) :
    pid ≠ 0 ∧ Gone k pid := by
  rcases hd with hp | ⟨w, hc, hw, hp, hn⟩
  · exact h.here pid hp
  · obtain ⟨h0, hg⟩ := h.parked w hc pid hw hp
    exact ⟨h0, hg.resolve_left hn⟩

/-- A PID that is gone stays so when no PID changes and the zombie found for it stays one. -/
theorem Gone.keep (h : Gone k pid)
    (hpid : ∀ j, (k'.procTable j).pid = (k.procTable j).pid)
    (hz : ∀ i, procFindIndex k pid = some i → (k.procTable i).state = .zombie →
      (k'.procTable i).state = .zombie) : Gone k' pid := by
  intro i hi
  rw [procFindIndex_congr hpid] at hi
  exact hz i hi (h i hi)

/-! ### Scheduling -/

/-- Every slot is parked well, as if none were running. -/
def AllParked (k : Kernel) : Prop := ∀ w, ParkedWell k w

theorem Reapable.saved (h : Reapable k) (frame : Registers) :
    AllParked (saved k frame) := by
  have hpid : ∀ j, ((Proc.saved k frame).procTable j).pid = (k.procTable j).pid := by
    intro j
    rw [saved_procTable]
    split <;> rfl
  have hgone : ∀ pid, Gone k pid → Gone (Proc.saved k frame) pid := fun pid hg =>
    hg.keep hpid fun i _ hz => by
      rw [saved_procTable]
      split
      · simp [Pcb.preempt, hz]
      · exact hz
  intro w pid hw hp
  by_cases hc : k.currentProc = some w
  · by_cases hu : (k.procTable w).state = .unused
    · rw [Alive, saved_procTable, if_neg fun e => e.2 hu] at hw
      exact absurd hu hw.1
    · rw [saved_procTable, if_pos ⟨hc, hu⟩] at hp
      obtain ⟨h0, hg⟩ := h.here pid hp
      exact ⟨h0, .inr (hgone pid hg)⟩
  · have e : (Proc.saved k frame).procTable w = k.procTable w := by
      rw [saved_procTable, if_neg fun e => hc e.1]
    rw [Alive, e] at hw
    rw [e] at hp
    obtain ⟨h0, hg⟩ := h.parked w hc pid hw hp
    refine ⟨h0, hg.imp (fun hh => ?_) (hgone pid)⟩
    rw [HeldFor, e]
    exact hh

theorem reapable_dispatch {next : Slot} (h : AllParked k)
    (hr : (k.procTable next).state = .ready) (he : k.schedulingEnabled = true) :
    Reapable (dispatch k next) := by
  have hpid : ∀ j, ((dispatch k next).procTable j).pid = (k.procTable j).pid := by
    intro j
    rw [dispatch_procTable]
    split <;> rfl
  have hgone : ∀ pid, Gone k pid → Gone (dispatch k next) pid := fun pid hg =>
    hg.keep hpid fun i _ hz => by
      have hne : i ≠ next := fun e => by rw [e, hr] at hz; cases hz
      rw [dispatch_procTable, if_neg hne]
      exact hz
  refine ⟨fun pid hp => ?_, fun w hw pid ha hp => ?_, fun _ => he⟩
  · rw [dispatch_point] at hp
    obtain ⟨h0, hg⟩ := h next pid (by simp [Alive, hr]) hp
    refine ⟨h0, hgone pid (hg.resolve_left fun hh => ?_)⟩
    rw [hh.1] at hr
    cases hr
  · have hne : w ≠ next := fun e => hw (by rw [e]; rfl)
    have e : (dispatch k next).procTable w = k.procTable w := by
      rw [dispatch_procTable, if_neg hne]
    rw [Alive, e] at ha
    rw [e] at hp
    obtain ⟨h0, hg⟩ := h w pid ha hp
    refine ⟨h0, hg.imp (fun hh => ?_) (hgone pid)⟩
    rw [HeldFor, e]
    exact hh

theorem reapable_procScheduleInterrupt (h : Reapable k) (frame : Registers) :
    Reapable (procScheduleInterrupt k frame) := by
  have hall := h.saved frame
  have hctl := sameControl_saved k frame
  rw [procScheduleInterrupt_eq]
  split
  · next he =>
      split
      · refine ⟨fun pid hp => ?_, fun w _ => hall w, fun hne => hctl.enabled.trans he⟩
        obtain ⟨h0, hg⟩ := h.here pid (hctl.point ▸ hp)
        refine ⟨h0, hg.keep (fun j => ?_) fun i _ hz => ?_⟩
        · rw [saved_procTable]; split <;> rfl
        · rw [saved_procTable]
          split
          · simp [Pcb.preempt, hz]
          · exact hz
      · next n hn => exact reapable_dispatch hall (findNext_ready hn) (hctl.enabled.trans he)
  · exact h

/-- `proc_yield`, at a point that is not `proc_wait_pid`'s. -/
theorem reapable_procYield (h : Reapable k) {point : KernelPoint}
    (hpt : ∀ pid, point ≠ .waitPid pid) (frame : Registers) : Reapable (procYield k point frame) := by
  have hpoint : Reapable { k with point := point } :=
    ⟨fun pid hp => absurd hp (hpt pid), h.parked, h.enabled⟩
  simp only [procYield]
  split
  · exact reapable_procScheduleInterrupt hpoint frame
  · exact hpoint

/-! ### Blocking and waking -/

/-- `P` holds of the PID, at the `proc_yield` of `proc_wait_pid`. -/
def KernelPoint.OnWait (point : KernelPoint) (P : UInt32 → Prop) : Prop :=
  match point with
  | .waitPid pid => P pid
  | _ => True

instance (point : KernelPoint) (P : UInt32 → Prop) [∀ pid, Decidable (P pid)] :
    Decidable (point.OnWait P) := by
  apply KernelPoint.casesOn (motive := fun point => Decidable (point.OnWait P)) point <;> intros <;>
    (delta KernelPoint.OnWait; infer_instance)

theorem KernelPoint.OnWait.at {point : KernelPoint} {P : UInt32 → Prop} (h : point.OnWait P)
    (hp : point = .waitPid pid) : P pid := by
  subst hp
  exact h

/-- The slot is a zombie that a process is about to reap, or that one of the slots the PIDs name
waits for. -/
def DueBeside (k : Kernel) (pids : List Int32) (i : Slot) : Prop :=
  (k.procTable i).state = .zombie ∧ procFindIndex k (k.procTable i).pid = some i ∧
    (Due k (k.procTable i).pid ∨ ∃ w, NamedBy k pids w ∧ k.currentProc ≠ some w ∧
      (k.procTable w).context.point = .waitPid (k.procTable i).pid)

instance (k : Kernel) (pids : List Int32) (i : Slot) : Decidable (DueBeside k pids i) := by
  delta DueBeside; infer_instance

/-- A waiter is woken only when the process it waits for is gone, a slot that is blocked waits for
what it is blocked on, and no zombie that is about to be reaped is touched. -/
def SignalsReap (k : Kernel) (σ : Signals) : Prop :=
  (∀ i, NamedBy k σ.wakes i → k.currentProc ≠ some i →
    (k.procTable i).context.point.OnWait fun pid => pid ≠ 0 ∧ Gone k pid) ∧
  (∀ i, NamedBy k σ.blocks.toList i → k.currentProc ≠ some i →
    (k.procTable i).context.point.OnWait fun pid =>
      pid ≠ 0 ∧ ((k.procTable i).waitingFor = pid ∨ Gone k pid)) ∧
  ∀ i, NamedBy k (σ.wakes ++ σ.blocks.toList) i →
    ¬ DueBeside k (σ.wakes ++ σ.blocks.toList) i

instance (k : Kernel) (σ : Signals) : Decidable (SignalsReap k σ) := by
  delta SignalsReap; infer_instance

theorem Signals.touch_record (σ : Signals) (k : Kernel) (j : Slot) :
    SameRecord (k.procTable j) ((σ.touch k).procTable j) ∧
      ((σ.touch k).procTable j).waitingFor = (k.procTable j).waitingFor := by
  rw [σ.touch_procTable]
  split_ifs <;> exact ⟨⟨rfl, rfl, rfl, rfl⟩, rfl⟩

/-- What is gone stays gone, if the zombie found for it is not touched. -/
theorem gone_touch {σ : Signals} (hok : SignalsReap k σ)
    (hg : Gone k pid)
    (hdue : Due k pid ∨ ∃ w, NamedBy k (σ.wakes ++ σ.blocks.toList) w ∧ k.currentProc ≠ some w ∧
      (k.procTable w).context.point = .waitPid pid) : Gone (σ.touch k) pid := by
  refine hg.keep (fun j => (σ.touch_record k j).1.pid) fun i hi hz => ?_
  have hpid := procFindIndex_pid hi
  have hnot : ¬ NamedBy k (σ.wakes ++ σ.blocks.toList) i := fun hnamed => by
    refine hok.2.2 i hnamed ⟨hz, ?_, ?_⟩
    · rw [hpid]; exact hi
    · rw [hpid]; exact hdue
  rw [namedBy_append, not_or] at hnot
  rw [σ.touch_procTable, if_neg hnot.2, if_neg hnot.1]
  exact hz

theorem reapable_touch (h : Reapable k) {σ : Signals} (hok : SignalsReap k σ) :
    Reapable (σ.touch k) := by
  have hctl := σ.sameControl_touch k
  refine ⟨fun pid hp => ?_, fun w hw pid ha hp => ?_, fun hne => ?_⟩
  · have hp' : k.point = .waitPid pid := hctl.point ▸ hp
    obtain ⟨h0, hg⟩ := h.here pid hp'
    exact ⟨h0, gone_touch hok hg (.inl (.inl hp'))⟩
  · rw [hctl.current] at hw
    rw [(σ.touch_record k w).1.point] at hp
    by_cases hb : NamedBy k σ.blocks.toList w
    · have hnamed : NamedBy k (σ.wakes ++ σ.blocks.toList) w := namedBy_append.mpr (.inr hb)
      obtain ⟨h0, hg⟩ := (hok.2.1 w hb hw).at hp
      refine ⟨h0, hg.imp (fun hwait => ⟨?_, ?_⟩) fun hg => ?_⟩
      · rw [σ.touch_procTable, if_pos hb]; rfl
      · rw [(σ.touch_record k w).2]; exact hwait
      · exact gone_touch hok hg (.inr ⟨w, hnamed, hw, hp⟩)
    · by_cases hn : NamedBy k σ.wakes w
      · have hnamed : NamedBy k (σ.wakes ++ σ.blocks.toList) w := namedBy_append.mpr (.inl hn)
        obtain ⟨h0, hg⟩ := (hok.1 w hn hw).at hp
        exact ⟨h0, .inr (gone_touch hok hg (.inr ⟨w, hnamed, hw, hp⟩))⟩
      · have e : (σ.touch k).procTable w = k.procTable w := by
          rw [σ.touch_procTable, if_neg hb, if_neg hn]
        rw [Alive, e] at ha
        obtain ⟨h0, hg⟩ := h.parked w hw pid ha hp
        refine ⟨h0, ?_⟩
        by_cases hheld : HeldFor k w pid
        · exact .inl (by rw [HeldFor, e]; exact hheld)
        · exact .inr (gone_touch hok (hg.resolve_left hheld) (.inl (.inr ⟨w, hw, ha, hp, hheld⟩)))
  · rw [hctl.enabled]
    exact h.enabled (hctl.current ▸ hne)

/-- The yield is not that of `proc_wait_pid`. -/
def Signals.NotInWait (σ : Signals) : Prop := ∀ pid frame, σ.yields ≠ some (.waitPid pid, frame)

theorem notInWait_acceptSignals (s : NetKernel) (id : Int32) (frame : Registers) :
    (acceptSignals s id frame).NotInWait := by
  intro pid f
  simp only [acceptSignals]
  split
  · simp
  · split_ifs <;> simp [park]

theorem notInWait_writeSignals (s : NetKernel) (i : SockSlot) (id : Int32) (src : List UInt8)
    (written : Nat) (frame : Registers) :
    (writeSignals s i id src written frame).NotInWait := by
  intro pid f
  simp only [writeSignals]
  split
  · split
    · simp
    · split_ifs <;> simp
  · simp

theorem notInWait_readSignals (s : NetKernel) (i : SockSlot) (id : Int32) (count : Nat)
    (frame : Registers) : (readSignals s i id count frame).NotInWait := by
  intro pid f
  simp only [readSignals]
  split_ifs <;> simp [park]

theorem notInWait_recvSignals (s : NetKernel) (i : SockSlot) (id : Int32) (count : Nat)
    (frame : Registers) : (recvSignals s i id count frame).NotInWait := by
  intro pid f
  simp only [recvSignals]
  split_ifs <;> simp [park]

/-- None of the operations that only wake, block and yield yields in `proc_wait_pid`. -/
theorem notInWait_signals (s : Sys) (o : Op) : (signals s o).NotInWait := by
  cases o
  case sockAccept => exact notInWait_acceptSignals _ _ _
  case resume =>
      simp only [signals]
      cases s.proc.point with
      | unixAccept => exact notInWait_acceptSignals _ _ _
      | unixWrite =>
          simp only [resumeSignals]
          split_ifs
          · exact notInWait_writeSignals _ _ _ _ _ _
          · exact fun _ _ => by simp
          · exact fun _ _ => by simp
      | unixRead =>
          simp only [resumeSignals]
          split
          · exact fun _ _ => by simp
          · exact notInWait_readSignals _ _ _ _ _
      | unixRecvfrom =>
          simp only [resumeSignals]
          split
          · exact fun _ _ => by simp
          · exact notInWait_recvSignals _ _ _ _ _
      | _ => exact fun _ _ => by simp [resumeSignals]
  case sockWrite =>
      simp only [signals]
      split
      · exact fun _ _ => by simp
      · split_ifs
        · exact fun _ _ => by simp
        · exact notInWait_writeSignals _ _ _ _ _ _
  case sockRead =>
      simp only [signals]
      split
      · exact fun _ _ => by simp
      · split_ifs
        · exact fun _ _ => by simp
        · exact notInWait_readSignals _ _ _ _ _
  case sockRecvfrom =>
      simp only [signals]
      split
      · exact fun _ _ => by simp
      · split_ifs
        · exact fun _ _ => by simp
        · exact notInWait_recvSignals _ _ _ _ _
  case sockConnect =>
      intro pid f
      simp only [signals, connectSignals]
      split
      · simp
      · split_ifs
        · simp
        · simp
        · split
          · simp
          · split_ifs <;> simp [park]
  case sockSendto =>
      intro pid f
      simp only [signals, sendtoSignals]
      split
      · simp
      · split_ifs
        · simp
        · split
          · simp
          · split_ifs <;> simp
  case sockDestroy =>
      intro pid f
      simp only [signals, destroySignals]
      split <;> simp
  case blockAs | unblockAs | consoleClear | consoleSetCurrentC | stdinRead =>
      intro pid f
      simp only [signals]
      split_ifs <;> simp [park]
  all_goals exact fun _ _ => by simp [signals]

theorem reapable_apply (h : Reapable k) {σ : Signals} (hok : SignalsReap k σ)
    (hy : σ.NotInWait) : Reapable (σ.apply k) := by
  have htouch := reapable_touch h hok
  have happly : σ.apply k = procYield? (σ.touch k) σ.yields := rfl
  rw [happly]
  cases hσ : σ.yields with
  | none => exact htouch
  | some y =>
      refine reapable_procYield htouch (fun pid e => hy pid y.2 ?_) y.2
      rw [hσ, ← e]

/-! ### Creation -/

variable {i : Slot}

theorem procFindIndex_le (h : (k.procTable i).pid = pid) :
    ∃ t, procFindIndex k pid = some t ∧ t ≤ i := by
  cases hf : procFindIndex k pid with
  | none =>
      have := List.find?_eq_none.mp hf i (List.mem_finRange i)
      simp [h] at this
  | some t =>
      refine ⟨t, rfl, not_lt.mp fun hlt => ?_⟩
      exact (procFindIndex_eq_some.mp hf).2 i hlt h

/-- A PID that is gone stays so when no slot takes it and its zombie stays. -/
theorem Gone.transport (h : Gone k pid)
    (hold : ∀ i, (k'.procTable i).pid = pid → (k.procTable i).pid = pid)
    (hz : ∀ i, procFindIndex k pid = some i → (k.procTable i).state = .zombie →
      (k'.procTable i).pid = pid ∧ (k'.procTable i).state = .zombie) : Gone k' pid := by
  intro i hi
  obtain ⟨hpid, hfirst⟩ := procFindIndex_eq_some.mp hi
  obtain ⟨t, ht, hle⟩ := procFindIndex_le (hold i hpid)
  obtain ⟨htpid, htz⟩ := hz t ht (h t ht)
  have hti : t = i := by
    rcases lt_or_eq_of_le hle with hlt | e
    · exact absurd htpid (hfirst t hlt)
    · exact e
  exact hti ▸ htz

/-- A process that is parked in `proc_wait_pid` was not just made. -/
theorem CreatedBeside.sameState_of_wait (hc : CreatedBeside k k') {w : Slot}
    (hp : (k'.procTable w).context.point = .waitPid pid) :
    SameState (k.procTable w) (k'.procTable w) := by
  cases hc.created with
  | nothing hslot => exact hslot w
  | @born slot hu hnew hslot =>
      refine hslot w fun e => ?_
      rw [e, hnew.point] at hp
      cases hp

/-- What is due after a creation was due before. -/
theorem due_created (hc : CreatedBeside k k') (hd : Due k' pid) :
    Due k pid := by
  rcases hd with hp | ⟨w, hw, ha, hp, hn⟩
  · exact .inl (hc.point ▸ hp)
  · rw [hc.current] at hw
    have hsame := hc.sameState_of_wait hp
    rw [Alive, hsame.state] at ha
    rw [hsame.point] at hp
    rw [HeldFor, hsame.state, hsame.waitingFor] at hn
    exact .inr ⟨w, hw, ha, hp, hn⟩

theorem reapable_created (h : Reapable k) (hc : CreatedBeside k k')
    (hnext : ¬ Due k k.nextPid) : Reapable k' := by
  have hgone : ∀ pid, Due k pid → Gone k' pid := by
    intro pid hd
    have hg := (h.due hd).2
    cases hc.created with
    | nothing hslot =>
        exact hg.keep (fun j => (hslot j).pid) fun i _ hz => (hslot i).state.trans hz
    | @born slot hu hnew hslot =>
        refine hg.transport (fun i hi => ?_) fun i hi hz => ?_
        · have hne : i ≠ slot := fun e => by
            rw [e, hnew.pid] at hi
            exact hnext (hi ▸ hd)
          rwa [(hslot i hne).pid] at hi
        · have hne : i ≠ slot := fun e => by rw [e, hu] at hz; cases hz
          rw [(hslot i hne).pid, (hslot i hne).state]
          exact ⟨procFindIndex_pid hi, hz⟩
  refine ⟨fun pid hp => ?_, fun w hw pid ha hp => ?_, fun hne => ?_⟩
  · have hd : Due k pid := .inl (hc.point ▸ hp)
    exact ⟨(h.due hd).1, hgone pid hd⟩
  · by_cases hheld : HeldFor k' w pid
    · -- a slot that is held was parked before
      refine ⟨?_, .inl hheld⟩
      rw [hc.current] at hw
      have hsame := hc.sameState_of_wait hp
      rw [Alive, hsame.state] at ha
      rw [hsame.point] at hp
      exact (h.parked w hw pid ha hp).1
    · have hd := due_created hc (.inr ⟨w, hw, ha, hp, hheld⟩)
      exact ⟨(h.due hd).1, .inr (hgone pid hd)⟩
  · rw [hc.enabled]
    exact h.enabled (hc.current ▸ hne)

/-- A change of the running process's own slot that keeps its PID. -/
theorem reapable_modify_current {c : Slot} {f : Pcb → Pcb} (h : Reapable k)
    (hc : k.currentProc = some c) (hpid : ∀ p, (f p).pid = p.pid)
    (hz : (k.procTable c).state = .zombie → ¬ Due k (k.procTable c).pid) :
    Reapable (k.modify c f) := by
  have hgone : ∀ pid, Due k pid → Gone (k.modify c f) pid := by
    intro pid hd
    refine (h.due hd).2.keep (fun j => ?_) fun i hi hzi => ?_
    · rw [Kernel.modify_apply]
      split
      · next e => rw [hpid, e]
      · rfl
    · have hne : i ≠ c := fun e => by
        subst e
        refine hz hzi ?_
        rw [procFindIndex_pid hi]
        exact hd
      rw [Kernel.modify_other _ _ hne]
      exact hzi
  refine ⟨fun pid hp => ⟨(h.here pid hp).1, hgone pid (.inl hp)⟩, fun w hw pid ha hp => ?_, h.enabled⟩
  have hne : w ≠ c := fun e => hw (e ▸ hc)
  rw [Alive, Kernel.modify_other _ _ hne] at ha
  rw [Kernel.modify_other _ _ hne] at hp
  obtain ⟨h0, hg⟩ := h.parked w hw pid ha hp
  refine ⟨h0, ?_⟩
  rw [HeldFor, Kernel.modify_other _ _ hne]
  by_cases hheld : HeldFor k w pid
  · exact .inl hheld
  · exact .inr (hgone pid (.inr ⟨w, hw, ha, hp, hheld⟩))

/-- A change that leaves every slot's state. -/
theorem reapable_sameState (h : Reapable k)
    (hs : ∀ j, SameState (k.procTable j) (k'.procTable j)) (hctl : SameControl k k') :
    Reapable k' := by
  have hgone : ∀ pid, Gone k pid → Gone k' pid := fun pid hg =>
    hg.keep (fun j => (hs j).pid) fun i _ hz => (hs i).state.trans hz
  refine ⟨fun pid hp => ?_, fun w hw pid ha hp => ?_, fun hne => ?_⟩
  · obtain ⟨h0, hg⟩ := h.here pid (hctl.point ▸ hp)
    exact ⟨h0, hgone pid hg⟩
  · rw [hctl.current] at hw
    rw [Alive, (hs w).state] at ha
    rw [(hs w).point] at hp
    obtain ⟨h0, hg⟩ := h.parked w hw pid ha hp
    refine ⟨h0, hg.imp (fun hh => ?_) (hgone pid)⟩
    rw [HeldFor, (hs w).state, (hs w).waitingFor]
    exact hh
  · rw [hctl.enabled]
    exact h.enabled (hctl.current ▸ hne)

/-- A process may make a vfork child: it is not a zombie that is about to be reaped. -/
def VforkReaps (k : Kernel) : Prop :=
  ∀ c, k.currentProc = some c → pcbAllocSlot k ≠ none → (k.procTable c).state = .zombie →
    ¬ Due k (k.procTable c).pid

instance (k : Kernel) : Decidable (VforkReaps k) := by
  delta VforkReaps; infer_instance

theorem reapable_procVfork (h : Reapable k) (hok : VforkReaps k)
    (hnext : ¬ Due k k.nextPid) (frame : Registers) : Reapable (procVfork k frame).1 := by
  rcases procVfork_cases k frame with e | ⟨parent, slot, k₁, hp, hs, hc, hnew, hother, e⟩
  · rw [e]; exact h
  rw [e]
  refine reapable_modify_current (reapable_created h hc hnext) (hc.current.trans hp)
    (fun _ => rfl) fun hz hd => ?_
  -- the parent is a zombie, so it is not the slot the child got
  have hne : parent ≠ slot := fun e => by rw [e, hnew.state] at hz; cases hz
  rw [(hother parent hne).state] at hz
  rw [(hother parent hne).pid] at hd
  exact hok parent hp (by simp [hs]) hz (due_created hc hd)

/-! ### Termination -/

/-- A process may be terminated: whoever waits for it as its parent is alive and will find it, and
its vfork parent, if it is parked in a wait, waits for it or for a zombie. -/
def TerminateReaps (k : Kernel) (i : Slot) : Prop :=
  (∀ w, (k.procTable w).pid = (k.procTable i).ppid →
    (k.procTable w).waitingFor = (k.procTable i).pid →
      w ≠ i ∧ Alive k w ∧ procFindIndex k (k.procTable i).pid = some i) ∧
  ∀ w, (k.procTable w).state = .blocked → (k.procTable i).vforkParent > 0 →
    (k.procTable w).pid = (k.procTable i).vforkParent.toUInt32 → k.currentProc ≠ some w →
      (k.procTable w).context.point.OnWait fun pid =>
        pid ≠ 0 ∧ (Gone k pid ∨ procFindIndex k pid = some i)

instance (k : Kernel) (i : Slot) : Decidable (TerminateReaps k i) := by
  delta TerminateReaps; infer_instance

variable {code : UInt64}

/-- The PIDs after a termination: those of erased slots are 0, the others as they were. -/
theorem procTerminate_pid
    (h : procTerminate k i code = some k') (j : Slot) :
    (k'.procTable j).pid = (k.procTable j).pid ∨ (k'.procTable j).pid = 0 := by
  have hbed : (deathbed k i code.toUInt32 j).pid = (k.procTable j).pid := by
    rw [deathbed]; split <;> rfl
  cases fate_procTerminate h j with
  | erased _ _ hid => exact .inr hid.pid
  | reborn _ _ _ hid => exact .inr hid.pid
  | kept hid => exact .inl (hid.pid.trans hbed)
  | woken hid => exact .inl (hid.pid.trans hbed)

/-- A zombie stays one, and the process that dies becomes one. -/
theorem procTerminate_zombie {i j : Slot}
    (hok : TerminateReaps k i) (h : procTerminate k i code = some k')
    (hj : (k.procTable j).state = .zombie ∨ j = i) :
    (k'.procTable j).pid = (k.procTable j).pid ∧ (k'.procTable j).state = .zombie := by
  have hbed : (deathbed k i code.toUInt32 j).pid = (k.procTable j).pid ∧
      (deathbed k i code.toUInt32 j).state = .zombie := by
    rw [deathbed]
    split
    · exact ⟨rfl, rfl⟩
    · next hne => exact ⟨rfl, hj.resolve_right hne⟩
  cases fate_procTerminate h j with
  | erased hne hd => exact absurd (hj.resolve_right hne) hd.alive.2
  | reborn hne hd => exact absurd (hj.resolve_right hne) hd.alive.2
  | kept hid hst => exact ⟨hid.pid.trans hbed.1, hst.trans hbed.2⟩
  | woken _ _ _ hwhy =>
      rcases hwhy with ⟨hb, -⟩ | ⟨hw, hp⟩
      · rw [hbed.2] at hb; cases hb
      · have hwait : (deathbed k i code.toUInt32 j).waitingFor = (k.procTable j).waitingFor := by
          rw [deathbed]; split <;> rfl
        rw [hbed.1] at hp
        rw [hwait] at hw
        obtain ⟨hne, ha, -⟩ := hok.1 j hp hw
        exact absurd (hj.resolve_right hne) ha.2

theorem gone_procTerminate
    (hok : TerminateReaps k i) (h : procTerminate k i code = some k') (h0 : pid ≠ 0)
    (hg : Gone k pid ∨ procFindIndex k pid = some i) : Gone k' pid := by
  intro t ht
  obtain ⟨hpid, hfirst⟩ := procFindIndex_eq_some.mp ht
  have hold : (k.procTable t).pid = pid := by
    rcases procTerminate_pid h t with e | e
    · rw [← e]; exact hpid
    · rw [e] at hpid; exact absurd hpid.symm h0
  obtain ⟨r, hr, hle⟩ := procFindIndex_le hold
  have hdead : (k.procTable r).state = .zombie ∨ r = i := by
    rcases hg with hg | hg
    · exact .inl (hg r hr)
    · rw [hg] at hr; exact .inr (Option.some.inj hr).symm
  obtain ⟨hrpid, hrz⟩ := procTerminate_zombie hok h hdead
  have hrt : r = t := by
    rcases lt_or_eq_of_le hle with hlt | e
    · exact absurd (hrpid.trans (procFindIndex_pid hr)) (hfirst r hlt)
    · exact e
  exact hrt ▸ hrz

theorem parkedWell_procTerminate {i w : Slot} (hr : Reapable k)
    (hok : TerminateReaps k i) (h : procTerminate k i code = some k')
    (hw : k.currentProc = some w → w = i) : ParkedWell k' w := by
  intro pid ha hp
  have hnz : ∀ hg : pid ≠ 0 ∧ (HeldFor k w pid ∨ Gone k pid), ¬ HeldFor k w pid → Gone k' pid :=
    fun hg hn => gone_procTerminate hok h hg.1 (.inl (hg.2.resolve_left hn))
  cases fate_procTerminate h w with
  | erased _ _ _ hst => exact absurd hst ha.1
  | reborn _ _ _ hid => rw [hid.point] at hp; cases hp
  | kept hid hst hwait =>
      have hwi : w ≠ i := fun e => ha.2 (by rw [hst, deathbed, if_pos e]; rfl)
      rw [deathbed, if_neg hwi] at hid hst hwait
      rw [Alive, hst] at ha
      rw [hid.point] at hp
      have hg := hr.parked w (fun hc => hwi (hw hc)) pid ha hp
      refine ⟨hg.1, ?_⟩
      rw [HeldFor, hst, hwait]
      by_cases hheld : HeldFor k w pid
      · exact .inl hheld
      · exact .inr (hnz hg hheld)
  | woken hid hst hwait hwhy =>
      by_cases hwi : w = i
      · -- the process that dies is not woken
        rw [deathbed, if_pos hwi] at hwhy
        rcases hwhy with ⟨hb, -⟩ | ⟨hwf, hpp⟩
        · cases hb
        · exact absurd hwi (hok.1 w hpp hwf).1
      rw [deathbed, if_neg hwi] at hid hwhy
      rw [hid.point] at hp
      have hcur : k.currentProc ≠ some w := fun hc => hwi (hw hc)
      rcases hwhy with ⟨hb, hv, hpv⟩ | ⟨hwf, hpp⟩
      · obtain ⟨h0, hg⟩ := (hok.2 w hb hv hpv hcur).at hp
        exact ⟨h0, .inr (gone_procTerminate hok h h0 hg)⟩
      · obtain ⟨-, hwa, hfind⟩ := hok.1 w hpp hwf
        have hg := hr.parked w hcur pid hwa hp
        refine ⟨hg.1, .inr ?_⟩
        by_cases hheld : HeldFor k w pid
        · refine gone_procTerminate hok h hg.1 (.inr ?_)
          rw [← hheld.2, hwf]
          exact hfind
        · exact hnz hg hheld

theorem reapable_procTerminate (hr : Reapable k)
    (hok : TerminateReaps k i) (h : procTerminate k i code = some k') : Reapable k' := by
  have hctl := sameControl_procTerminate h
  refine ⟨fun pid hp => ?_, fun w hw => ?_, fun hne => ?_⟩
  · obtain ⟨h0, hg⟩ := hr.here pid (hctl.point ▸ hp)
    exact ⟨h0, gone_procTerminate hok h h0 (.inl hg)⟩
  · rw [hctl.current] at hw
    exact parkedWell_procTerminate hr hok h fun hc => absurd hc hw
  · rw [hctl.enabled]
    exact hr.enabled (hctl.current ▸ hne)

theorem reapable_procKillAs {actor pid : Int32} (hr : Reapable k)
    (hok : procCanAct k actor pid = true →
      ∀ i, procFindIndex k pid.toUInt32 = some i → TerminateReaps k i)
    (h : procKillAs k actor pid = some k') : Reapable k' := by
  simp only [procKillAs] at h
  split at h
  · next ha =>
      split at h
      · cases h; exact hr
      · next i hi => exact reapable_procTerminate hr (hok ha i hi) h
  · cases h; exact hr

theorem reapable_procExit (hr : Reapable k)
    (hok : ∀ i, k.currentProc = some i → TerminateReaps k i)
    (h : procExit k code = some k') : Reapable k' := by
  simp only [procExit] at h
  split at h
  · cases h; exact ⟨fun _ hp => (by cases hp), hr.parked, hr.enabled⟩
  · next i hi =>
      obtain ⟨k₁, h₁, rfl⟩ := Option.map_eq_some_iff.mp h
      have hall : AllParked k₁ := fun w =>
        parkedWell_procTerminate hr (hok i hi) h₁ fun hc => by
          rw [hi] at hc; exact (Option.some.inj hc).symm
      have he : k₁.schedulingEnabled = true :=
        (sameControl_procTerminate h₁).enabled.trans (hr.enabled (by simp [hi]))
      split
      · next n hn =>
          have hd : Reapable (dispatch k₁ n) := reapable_dispatch hall (findNext_ready hn) he
          have hsame : ∀ a, Reapable (vmmDestroyAddressSpace (dispatch k₁ n) a) := fun a =>
            reapable_sameState hd (fun _ => .refl _) ⟨rfl, rfl, rfl, rfl⟩
          split
          · exact hd
          · split
            · exact hsame _
            · exact hd
      · split
        · exact ⟨fun _ hp => (by cases hp), fun w _ => hall w, fun hne => absurd rfl hne⟩
        · exact ⟨fun _ hp => (by cases hp), fun w _ => hall w, fun hne => absurd rfl hne⟩

/-! ### Waiting -/

/-- If a process is about to reap what it finds for the PID of slot `i`, any other slot with that
PID is a zombie as well. -/
def ReapSole (k : Kernel) (i : Slot) : Prop :=
  ∀ j, j ≠ i → (k.procTable j).pid = (k.procTable i).pid → Due k (k.procTable i).pid →
    (k.procTable j).state = .zombie

instance (k : Kernel) (i : Slot) : Decidable (ReapSole k i) := by
  delta ReapSole; infer_instance

theorem procReap_procTable (k : Kernel) (i j : Slot) :
    (procReap k i).procTable j = if j = i then (k.procTable i).clearHead else k.procTable j :=
  pcbRelease_procTable k i j

theorem reapable_procReap {r : Slot} (h : Reapable k) (hs : ReapSole k r) :
    Reapable (procReap k r) := by
  have hctl := sameControl_pcbRelease k r
  have hother : ∀ j, j ≠ r → (procReap k r).procTable j = k.procTable j := fun j hj => by
    rw [procReap_procTable, if_neg hj]
  have hgone : ∀ pid, Due k pid → Gone (procReap k r) pid := by
    intro pid hd i hi
    obtain ⟨h0, hg⟩ := h.due hd
    obtain ⟨hpid, hfirst⟩ := procFindIndex_eq_some.mp hi
    have hir : i ≠ r := fun e => by
      rw [e, procReap_procTable, if_pos rfl] at hpid
      exact h0 hpid.symm
    rw [hother i hir] at hpid ⊢
    obtain ⟨t, ht, hle⟩ := procFindIndex_le hpid
    have htpid := procFindIndex_pid ht
    by_cases htr : t = r
    · subst htr
      exact hs i hir (hpid.trans htpid.symm) (by rw [htpid]; exact hd)
    · rcases lt_or_eq_of_le hle with hlt | e
      · exact absurd (by rw [hother t htr]; exact htpid) (hfirst t hlt)
      · exact e ▸ hg t ht
  refine ⟨fun pid hp => ?_, fun w hw pid ha hp => ?_, fun hne => ?_⟩
  · have hp' : k.point = .waitPid pid := hctl.point ▸ hp
    exact ⟨(h.here pid hp').1, hgone pid (.inl hp')⟩
  · have hw' : k.currentProc ≠ some w := fun e => hw (hctl.current.trans e)
    have hwr : w ≠ r := fun e => ha.1 (by rw [e, procReap_procTable, if_pos rfl]; rfl)
    rw [Alive, hother w hwr] at ha
    rw [hother w hwr] at hp
    refine ⟨(h.parked w hw' pid ha hp).1, ?_⟩
    rw [HeldFor, hother w hwr]
    by_cases hheld : HeldFor k w pid
    · exact .inl hheld
    · exact .inr (hgone pid (.inr ⟨w, hw', ha, hp, hheld⟩))
  · have he : (procReap k r).schedulingEnabled = k.schedulingEnabled := hctl.enabled
    rw [he]
    exact h.enabled (hctl.current ▸ hne)

/-- A wait may be made: a zombie has its PID alone; a caller that is to be blocked is the running
process, is no zombie about to be reaped itself, waits for a PID that is not 0, and leaves the
processor to a READY process. -/
def WaitReaps (k : Kernel) (pid : UInt32) : Prop :=
  ∀ i, procFindIndex k pid = some i →
    if (k.procTable i).state = .zombie then ReapSole k i
    else ∀ p, procFindIndex k (procGetCurrentPid k).toUInt32 = some p →
      pid ≠ 0 ∧ k.currentProc = some p ∧
        ((k.procTable p).state = .zombie → ¬ Due k (k.procTable p).pid) ∧
        ∃ j, j ≠ p ∧ (k.procTable j).state = .ready

instance (k : Kernel) (pid : UInt32) : Decidable (WaitReaps k pid) := by
  delta WaitReaps; infer_instance

/-- The caller is parked: it is held for the PID, and another process runs. -/
theorem reapable_park {p j : Slot} (h : Reapable k) (h0 : pid ≠ 0)
    (hc : k.currentProc = some p)
    (hz : (k.procTable p).state = .zombie → ¬ Due k (k.procTable p).pid)
    (hj : j ≠ p) (hr : (k.procTable j).state = .ready) (frame : Registers) :
    Reapable (procYield
      (k.modify p fun q => (q.setWaitingFor pid).setState .blocked) (.waitPid pid) frame) := by
  set k₁ := k.modify p fun q => (q.setWaitingFor pid).setState .blocked with hk₁
  have h₁ : Reapable k₁ := reapable_modify_current h hc (fun _ => rfl) hz
  have hp₁ : k₁.procTable p = ((k.procTable p).setWaitingFor pid).setState .blocked := by simp [hk₁]
  have he : k₁.schedulingEnabled = true := h.enabled (by simp [hc])
  set k₂ : Kernel := { k₁ with point := .waitPid pid } with hk₂
  have hc₂ : k₂.currentProc = some p := hc
  have hyield : procYield k₁ (.waitPid pid) frame = procScheduleInterrupt k₂ frame := by
    simp only [procYield]
    exact if_pos ⟨he, by rw [hc₂]; simp⟩
  have hself : (saved k₂ frame).procTable p =
      (k₁.procTable p).preempt { frame with point := .waitPid pid } := by
    rw [saved_procTable, if_pos ⟨hc₂, by simp [hk₂, hp₁, Pcb.setState]⟩]
  have hother : ∀ w, w ≠ p → (saved k₂ frame).procTable w = k₁.procTable w := fun w hw => by
    rw [saved_procTable, if_neg fun e => hw ?_]
    rw [hc₂] at e
    exact (Option.some.inj e.1).symm
  have hall : AllParked (saved k₂ frame) := by
    intro w q ha hq
    by_cases hwp : w = p
    · subst hwp
      rw [hself] at hq
      cases hq
      refine ⟨h0, .inl ⟨?_, ?_⟩⟩
      · rw [hself, hp₁]; rfl
      · rw [hself, hp₁]; rfl
    · have hcw : k₁.currentProc ≠ some w := fun e => hwp (by
        have e' : k.currentProc = some w := e
        rw [hc] at e'
        exact (Option.some.inj e').symm)
      rw [Alive, hother w hwp] at ha
      rw [hother w hwp] at hq
      obtain ⟨hq0, hg⟩ := h₁.parked w hcw q ha hq
      refine ⟨hq0, hg.imp (fun hh => ?_) fun hg => hg.keep (fun i => ?_) fun i hi hzi => ?_⟩
      · rw [HeldFor, hother w hwp]; exact hh
      · by_cases hip : i = p
        · rw [hip, hself]; rfl
        · rw [hother i hip]
      · have hip : i ≠ p := fun e => by rw [e, hp₁] at hzi; cases hzi
        rw [hother i hip]
        exact hzi
  have hready : ((saved k₂ frame).procTable j).state = .ready := by
    rw [hother j hj, hk₁, Kernel.modify_other _ _ hj]
    exact hr
  obtain ⟨n, hn⟩ := findNext_isSome hready
  have he₂ : (saved k₂ frame).schedulingEnabled = true := (sameControl_saved k₂ frame).enabled.trans he
  rw [hyield, procScheduleInterrupt_eq, if_pos he, hn]
  exact reapable_dispatch hall (findNext_ready hn) he₂

theorem reapable_procWaitPid {pid : UInt64} {frame : Registers} (h : Reapable k)
    (hok : WaitReaps k pid.toUInt32) : Reapable (procWaitPid k pid frame).1 := by
  simp only [procWaitPid]
  split
  · exact h
  · next i hi =>
      have hcase := hok i hi
      split
      · next hz =>
          rw [if_neg hz] at hcase
          split
          · exact h
          · next p hp =>
              obtain ⟨h0, hc, hzp, j, hj, hr⟩ := hcase p hp
              exact reapable_park h h0 hc hzp hj hr frame
      · next hz =>
          rw [if_pos (not_not.mp hz)] at hcase
          exact reapable_procReap h hcase

theorem reapable_procStartScheduling (h : Reapable k)
    (hok : k.currentProc = none ∨ ∀ i, (k.procTable i).state ≠ .ready) :
    Reapable (procStartScheduling k) := by
  have hon : Reapable { k with schedulingEnabled := true } := ⟨h.here, h.parked, fun _ => rfl⟩
  have hidle : ∀ i, (k.procTable i).state = .ready → AllParked k := by
    intro i hi w
    rcases hok with e | e
    · exact h.parked w (by rw [e]; simp)
    · exact absurd hi (e i)
  simp only [procStartScheduling]
  split
  · next i hi =>
      have hr := List.find?_some hi
      simp only [Bool.and_eq_true, beq_iff_eq] at hr
      exact reapable_dispatch (k := { k with schedulingEnabled := true }) (hidle i hr.1) hr.1 rfl
  · split
    · next i hi =>
        have hr := List.find?_some hi
        simp only [beq_iff_eq] at hr
        have hd : Reapable (dispatch { k with schedulingEnabled := true } i) :=
          reapable_dispatch (k := { k with schedulingEnabled := true }) (hidle i hr) hr rfl
        -- as a dispatch, but the code that runs goes on
        refine ⟨fun pid hp => ⟨(h.here pid hp).1, (h.here pid hp).2.keep (fun j => ?_) fun j _ hz => ?_⟩,
          hd.parked, fun _ => rfl⟩
        · rw [Kernel.modify_apply]
          split
          · next e => rw [e]; rfl
          · rfl
        · have hne : j ≠ i := fun e => by rw [e, hr] at hz; cases hz
          rw [Kernel.modify_other _ _ hne]
          exact hz
    · exact hon

/-! ### The record of exit codes -/

/-- The record has the exit code of every zombie. -/
def Recorded (k : Kernel) (g : Codes) : Prop :=
  ∀ i, (k.procTable i).state = .zombie → g i = some ((k.procTable i).pid, (k.procTable i).exitCode)

/-- The zombies were zombies before, with the same PID and exit code. -/
def NoNewZombie (k k' : Kernel) : Prop :=
  ∀ i, (k'.procTable i).state = .zombie → (k.procTable i).state = .zombie ∧
    (k'.procTable i).pid = (k.procTable i).pid ∧
    (k'.procTable i).exitCode = (k.procTable i).exitCode

theorem Recorded.keep {g : Codes} (h : Recorded k g) (hz : NoNewZombie k k') :
    Recorded k' g := by
  intro i hi
  obtain ⟨hk, hp, he⟩ := hz i hi
  rw [hp, he]
  exact h i hk

namespace NoNewZombie

theorem refl (k : Kernel) : NoNewZombie k k := fun _ h => ⟨h, rfl, rfl⟩

theorem trans {a b c : Kernel} (h₁ : NoNewZombie a b) (h₂ : NoNewZombie b c) : NoNewZombie a c := by
  intro i hi
  obtain ⟨hb, hp₂, he₂⟩ := h₂ i hi
  obtain ⟨ha, hp₁, he₁⟩ := h₁ i hb
  exact ⟨ha, hp₂.trans hp₁, he₂.trans he₁⟩

theorem of_table (h : k'.procTable = k.procTable) : NoNewZombie k k' := by
  intro i hi
  rw [h] at hi ⊢
  exact ⟨hi, rfl, rfl⟩

theorem of_sameState (h : ∀ j, SameState (k.procTable j) (k'.procTable j)) :
    NoNewZombie k k' := fun i hi => ⟨(h i).state ▸ hi, (h i).pid, (h i).exitCode⟩

/-- A change of one slot that does not make it a zombie. -/
theorem modify {f : Pcb → Pcb} (hf : ∀ p, (f p).state ≠ .zombie) :
    NoNewZombie k (k.modify i f) := by
  intro j hj
  rw [Kernel.modify_apply] at hj ⊢
  split at hj
  · exact absurd hj (hf _)
  · next e => rw [if_neg e]; exact ⟨hj, rfl, rfl⟩

end NoNewZombie

theorem noNewZombie_dispatch (k : Kernel) (next : Slot) : NoNewZombie k (dispatch k next) := by
  intro i hi
  rw [dispatch_procTable] at hi ⊢
  split at hi
  · cases hi
  · next e => rw [if_neg e]; exact ⟨hi, rfl, rfl⟩

theorem noNewZombie_procScheduleInterrupt (k : Kernel) (frame : Registers) :
    NoNewZombie k (procScheduleInterrupt k frame) := by
  have hsaved : NoNewZombie k (saved k frame) := by
    intro i hi
    rw [saved_procTable] at hi ⊢
    split at hi
    · next hc =>
        rw [if_pos hc]
        simp only [Pcb.preempt] at hi
        split at hi
        · cases hi
        · exact ⟨hi, rfl, rfl⟩
    · next hc => rw [if_neg hc]; exact ⟨hi, rfl, rfl⟩
  rw [procScheduleInterrupt_eq]
  split
  · split
    · exact hsaved
    · exact hsaved.trans (noNewZombie_dispatch _ _)
  · exact .refl k

theorem noNewZombie_procYield (k : Kernel) (point : KernelPoint) (frame : Registers) :
    NoNewZombie k (procYield k point frame) := by
  have hpoint : NoNewZombie k { k with point := point } := .of_table rfl
  simp only [procYield]
  split
  · exact hpoint.trans (noNewZombie_procScheduleInterrupt _ _)
  · exact hpoint

theorem noNewZombie_apply (k : Kernel) (σ : Signals) : NoNewZombie k (σ.apply k) := by
  have htouch : NoNewZombie k (σ.touch k) := by
    intro i hi
    refine ⟨?_, (σ.touch_record k i).1.pid, (σ.touch_record k i).1.exitCode⟩
    rw [σ.touch_procTable] at hi
    split_ifs at hi
    · cases hi
    · cases hi
    · exact hi
  have happly : σ.apply k = procYield? (σ.touch k) σ.yields := rfl
  rw [happly]
  cases σ.yields with
  | none => exact htouch
  | some y => exact htouch.trans (noNewZombie_procYield _ _ _)

theorem noNewZombie_created (h : CreatedBeside k k') : NoNewZombie k k' := by
  cases h.created with
  | nothing hslot => exact .of_sameState hslot
  | @born slot hu hnew hslot =>
      intro i hi
      have hne : i ≠ slot := fun e => by rw [e, hnew.state] at hi; cases hi
      exact ⟨(hslot i hne).state ▸ hi, (hslot i hne).pid, (hslot i hne).exitCode⟩

theorem noNewZombie_procVfork (k : Kernel) (frame : Registers) :
    NoNewZombie k (procVfork k frame).1 := by
  rcases procVfork_cases k frame with e | ⟨parent, slot, k₁, -, -, hc, -, -, e⟩
  · rw [e]; exact .refl k
  · rw [e]
    exact (noNewZombie_created hc).trans (.modify fun p => by simp [Pcb.awaitVfork])

theorem noNewZombie_procReap (k : Kernel) (i : Slot) : NoNewZombie k (procReap k i) := by
  intro j hj
  rw [procReap_procTable] at hj ⊢
  split at hj
  · cases hj
  · next e => rw [if_neg e]; exact ⟨hj, rfl, rfl⟩

theorem noNewZombie_procWaitPid (k : Kernel) (pid : UInt64) (frame : Registers) :
    NoNewZombie k (procWaitPid k pid frame).1 := by
  simp only [procWaitPid]
  split
  · exact .refl k
  · split
    · split
      · exact .refl k
      · refine NoNewZombie.trans (.modify
          (f := fun q => (q.setWaitingFor pid.toUInt32).setState .blocked)
          fun p => by simp [Pcb.setState]) (noNewZombie_procYield _ _ _)
    · exact noNewZombie_procReap k _

/-- A termination adds one zombie, with the code it was given. -/
theorem recorded_procTerminate {g : Codes}
    (hg : Recorded k g) (h : procTerminate k i code = some k') :
    Recorded k' (Function.update g i (some ((k.procTable i).pid, code.toUInt32))) := by
  intro j hj
  cases fate_procTerminate h j with
  | erased _ _ _ hst => rw [hst] at hj; cases hj
  | reborn _ _ _ _ hst => rw [hst] at hj; cases hj
  | woken _ hst => rw [hst] at hj; cases hj
  | kept hid hst =>
      rw [hid.pid, hid.exitCode]
      rw [hst] at hj
      by_cases e : j = i
      · subst e
        simp [deathbed, Pcb.die]
      · rw [deathbed, if_neg e] at hj ⊢
        rw [Function.update_of_ne e]
        exact hg j hj

theorem recorded_procExit {g : Codes}
    (hg : Recorded k g) (hi : k.currentProc = some i) (h : procExit k code = some k') :
    Recorded k' (Function.update g i (some ((k.procTable i).pid, code.toUInt32))) := by
  simp only [procExit, hi] at h
  obtain ⟨k₁, h₁, rfl⟩ := Option.map_eq_some_iff.mp h
  refine (recorded_procTerminate hg h₁).keep ?_
  split
  · next n _ =>
      have hd := noNewZombie_dispatch k₁ n
      split
      · exact hd
      · split
        · exact hd.trans (.of_table rfl)
        · exact hd
  · split <;> exact .of_table rfl

/-! ### The machine -/

/-- The operation wakes no waiter early, revives no zombie that is about to be reaped, and gives out
no PID that is about to be looked up: a condition on the state before it. -/
def ReapsDue (s : Sys) (o : Op) : Prop :=
  SignalsReap s.proc (signals s o) ∧ (o.creates = true → ¬ Due s.proc s.proc.nextPid) ∧
  match o with
  | .vfork _ => VforkReaps s.proc
  | .clone _ flags _ _ _ => flags &&& cloneVfork ≠ 0 → VforkReaps s.proc
  | .killAs actor pid => procCanAct s.proc actor pid = true →
      ∀ i, procFindIndex s.proc pid.toUInt32 = some i → TerminateReaps s.proc i
  | .exit _ => ∀ i, s.proc.currentProc = some i → TerminateReaps s.proc i
  | .waitPid pid _ => WaitReaps s.proc pid.toUInt32
  | .waitPidAs actor pid _ =>
      procCanAct s.proc actor pid.toUInt32.toInt32 = true → WaitReaps s.proc pid.toUInt32
  | .resume _ => s.proc.point.OnWait fun pid =>
      ∀ i, procFindIndex s.proc pid = some i → ReapSole s.proc i
  | .startScheduling =>
      s.proc.currentProc = none ∨ ∀ i, (s.proc.procTable i).state ≠ .ready
  | _ => True

instance (s : Sys) (o : Op) : Decidable (ReapsDue s o) := by
  apply Op.casesOn (motive := fun o => Decidable (ReapsDue s o)) o <;> intros <;>
    (delta ReapsDue; infer_instance)

theorem ReapsDue.clearCalls {s : Sys} {o : Op} (h : ReapsDue s o) :
    ReapsDue (Sys.clearCalls s) o := by
  cases o <;> exact h

theorem reapable_perform {s : Sys} {o : Op} (hr : Reapable s.proc) (hok : ReapsDue s o)
    (h : Performed s o k') : Reapable k' := by
  have hr' : Reapable { s.proc with point := .process } :=
    ⟨fun _ hp => (by cases hp), hr.parked, hr.enabled⟩
  -- the process is at no wait any more, so what is due now was
  have hdue : ∀ pid, Due { s.proc with point := .process } pid → Due s.proc pid := by
    rintro pid (hpt | hd)
    · cases hpt
    · exact .inr hd
  cases h with
  | signals => exact reapable_apply hr hok.1 (notInWait_signals s o)
  | creates ho _ hc => exact reapable_created hr hc (hok.2.1 ho)
  | vfork frame => exact reapable_procVfork hr hok.2.2 (hok.2.1 rfl) frame
  | cloneVfork frame _ _ _ hv =>
      exact reapable_sameState (reapable_procVfork hr (hok.2.2 hv) (hok.2.1 rfl) frame)
        (sameState_setChildStack _ _ _) (sameControl_setChildStack _ _ _)
  | exit hk => exact reapable_procExit hr hok.2.2 hk
  | killAs hk => exact reapable_procKillAs hr hok.2.2 hk
  | waitPid => exact reapable_procWaitPid hr hok.2.2
  | waitPidAs _ ha => exact reapable_procWaitPid hr (hok.2.2 ha)
  | refused => exact hr
  | gone => exact hr'
  | reaps _ hp hi =>
      exact reapable_procReap hr' fun j hj hpid hd => hok.2.2.at hp _ hi j hj hpid (hdue _ hd)
  | resumes =>
      refine reapable_apply hr' ⟨hok.1.1, hok.1.2.1, fun i hi hd => hok.1.2.2 i hi ?_⟩
        (notInWait_signals s _)
      exact ⟨hd.1, hd.2.1, hd.2.2.imp (hdue _) id⟩
  | timer frame => exact reapable_procScheduleInterrupt hr frame
  | startScheduling => exact reapable_procStartScheduling hr hok.2.2

/-- Operations that terminate nobody make no zombie. -/
theorem noNewZombie_perform {s : Sys} {o : Op} (ht : terminated s o = none) (h : Performed s o k') :
    NoNewZombie s.proc k' := by
  have hpoint : NoNewZombie s.proc { s.proc with point := .process } := .of_table rfl
  cases h with
  | signals => exact noNewZombie_apply _ _
  | creates _ _ hc => exact noNewZombie_created hc
  | vfork => exact noNewZombie_procVfork _ _
  | cloneVfork => exact (noNewZombie_procVfork _ _).trans (.of_sameState (sameState_setChildStack _ _ _))
  | exit hk =>
      simp only [terminated, Option.map_eq_none_iff] at ht
      simp only [procExit, ht] at hk
      cases hk
      exact .of_table rfl
  | killAs hk =>
      simp only [terminated] at ht
      simp only [procKillAs] at hk
      split at hk
      · next ha =>
          rw [if_pos ha, Option.map_eq_none_iff] at ht
          rw [ht] at hk
          cases hk
          exact .refl _
      · cases hk; exact .refl _
  | waitPid | waitPidAs => exact noNewZombie_procWaitPid _ _ _
  | refused => exact .refl _
  | gone => exact hpoint
  | reaps => exact hpoint.trans (noNewZombie_procReap _ _)
  | resumes => exact hpoint.trans (noNewZombie_apply _ _)
  | timer => exact noNewZombie_procScheduleInterrupt _ _
  | startScheduling =>
      have hon : NoNewZombie s.proc { s.proc with schedulingEnabled := true } := .of_table rfl
      simp only [procStartScheduling]
      split
      · exact hon.trans (noNewZombie_dispatch _ _)
      · split
        · exact hon.trans ((noNewZombie_dispatch _ _).trans (.of_table rfl))
        · exact hon

theorem reapedNow_eq_some :
    reapedNow k pid = some i ↔ procFindIndex k pid = some i ∧ (k.procTable i).state = .zombie := by
  simp [reapedNow, Option.filter_eq_some_iff]

/-- A wait that finds a zombie reaps it and returns its exit code. -/
theorem procWaitPid_of_zombie {pid : UInt64} (frame : Registers)
    (h : reapedNow k pid.toUInt32 = some i) :
    procWaitPid k pid frame = (procReap k i, some (k.procTable i).exitCode.toUInt64) := by
  obtain ⟨hi, hz⟩ := reapedNow_eq_some.mp h
  simp [procWaitPid, hi, hz, procWaitPidFinish]

theorem procReap_unused (k : Kernel) (i : Slot) : ((procReap k i).procTable i).state = .unused := by
  rw [procReap_procTable, if_pos rfl]
  rfl

/-- What a wait that reaps returns. -/
theorem waitResult_of_reaped {s : Sys} {o : Op}
    (hr : reaped s o = some (i, pid)) :
    waitResult s o = some (s.proc.procTable i).exitCode.toUInt64 := by
  cases o <;> simp only [reaped, reduceCtorEq] at hr
  case waitPid q frame =>
      obtain ⟨j, hj, e⟩ := Option.map_eq_some_iff.mp hr
      cases e
      simp only [waitResult, procWaitPid_of_zombie frame hj]
  case waitPidAs actor q frame =>
      split at hr
      · next ha =>
          obtain ⟨j, hj, e⟩ := Option.map_eq_some_iff.mp hr
          cases e
          simp only [waitResult, procWaitPidAs, if_pos ha, procWaitPid_of_zombie frame hj]
      · cases hr
  case resume frame =>
      split at hr
      · next q hp =>
          obtain ⟨j, hj, e⟩ := Option.map_eq_some_iff.mp hr
          cases e
          simp only [waitResult, hp, procWaitPidResume, hj, procWaitPidFinish]
      · cases hr

/-- The slot `reaped` names has the PID waited for and is erased; it was seen to be a zombie, or the
wait had blocked. -/
theorem perform_reaped {s s' : Sys} {o : Op}
    (hr : reaped s o = some (i, pid)) (h : perform s o = some s') :
    (s.proc.procTable i).pid = pid ∧ (s'.proc.procTable i).state = .unused ∧
      ((s.proc.procTable i).state = .zombie ∨
        s.proc.point = .waitPid pid ∧ procFindIndex s.proc pid = some i) := by
  cases o <;> simp only [reaped, reduceCtorEq] at hr
  case waitPid q frame =>
      obtain ⟨j, hj, e⟩ := Option.map_eq_some_iff.mp hr
      cases e
      cases h
      obtain ⟨hi, hz⟩ := reapedNow_eq_some.mp hj
      simp only [Sys.setProc_proc, procWaitPid_of_zombie frame hj]
      exact ⟨procFindIndex_pid hi, procReap_unused _ _, .inl hz⟩
  case waitPidAs actor q frame =>
      split at hr
      · next ha =>
          obtain ⟨j, hj, e⟩ := Option.map_eq_some_iff.mp hr
          cases e
          cases h
          obtain ⟨hi, hz⟩ := reapedNow_eq_some.mp hj
          simp only [Sys.setProc_proc, procWaitPidAs, if_pos ha, procWaitPid_of_zombie frame hj]
          exact ⟨procFindIndex_pid hi, procReap_unused _ _, .inl hz⟩
      · cases hr
  case resume frame =>
      split at hr
      · next q hp =>
          obtain ⟨j, hj, e⟩ := Option.map_eq_some_iff.mp hr
          cases e
          simp only [perform, hp, resumeAt] at h
          cases h
          have hj' : procFindIndex { s.proc with point := .process } pid = some i := hj
          simp only [Sys.setProc_proc, procWaitPidResume, hj', procWaitPidFinish]
          exact ⟨procFindIndex_pid hj, procReap_unused _ _, .inr ⟨hp, hj⟩⟩
      · cases hr

theorem recorded_perform {s s' : Sys} {o : Op} {g : Codes} (hg : Recorded s.proc g)
    (h : perform s o = some s') : Recorded s'.proc (record s g o) := by
  simp only [record]
  cases ht : terminated s o with
  | none =>
      have hkeep := hg.keep (noNewZombie_perform ht (performed h))
      cases hr : reaped s o with
      | none => exact hkeep
      | some r =>
          intro j hj
          have hne : j ≠ r.1 := fun e => by
            rw [e, (perform_reaped hr h).2.1] at hj
            cases hj
          simp only [Function.update_of_ne hne]
          exact hkeep j hj
  | some r =>
      cases o <;> simp only [terminated, reduceCtorEq] at ht
      case exit code =>
          obtain ⟨i, hi, rfl⟩ := Option.map_eq_some_iff.mp ht
          obtain ⟨k', hk, rfl⟩ := Option.map_eq_some_iff.mp h
          exact recorded_procExit hg hi hk
      case killAs actor pid =>
          split at ht
          · next ha =>
              obtain ⟨i, hi, rfl⟩ := Option.map_eq_some_iff.mp ht
              obtain ⟨k', hk, rfl⟩ := Option.map_eq_some_iff.mp h
              simp only [procKillAs, if_pos ha, hi] at hk
              exact recorded_procTerminate hg hk
          · cases ht

theorem record_clearCalls (s : Sys) (g : Codes) (o : Op) : record (Sys.clearCalls s) g o = record s g o := by
  cases o <;> rfl

theorem reapsDue_step {s s' : Sys × Codes} {o : Op} (hr : Reapable s.1.proc)
    (hg : Recorded s.1.proc s.2) (hok : ReapsDue s.1 o) (h : recordingStep s o = some s') :
    (Reapable s'.1.proc ∧ Recorded s'.1.proc s'.2) ∧ Delivers s o s' := by
  obtain ⟨s₁, h₁, rfl⟩ := Option.map_eq_some_iff.mp h
  simp only [step] at h₁
  split at h₁
  · cases h₁
  have hr₀ : Reapable (Sys.clearCalls s.1).proc := ⟨hr.here, hr.parked, hr.enabled⟩
  refine ⟨⟨reapable_perform hr₀ hok.clearCalls (performed h₁), ?_⟩, fun ⟨i, pid⟩ hi => ?_⟩
  · rw [← record_clearCalls]
    exact recorded_perform (s := Sys.clearCalls s.1) hg h₁
  · have hi₀ : reaped (Sys.clearCalls s.1) o = some (i, pid) := by
      rw [← hi]
      cases o <;> rfl
    obtain ⟨hpid, hu, hz⟩ := perform_reaped hi₀ h₁
    have hzombie : (s.1.proc.procTable i).state = .zombie := by
      rcases hz with hz | ⟨hp, hfind⟩
      · exact hz
      · exact (hr.here pid hp).2 i hfind
    exact ⟨hzombie, hpid, hu, _, hg i hzombie, hpid, waitResult_of_reaped hi⟩

theorem reapable_boot (users : User.UserDb) : Reapable (boot users).proc := by
  have h₀ : Reapable { users := users } :=
    ⟨fun _ hp => (by cases hp), fun _ _ _ ha => absurd rfl ha.1, fun hne => absurd rfl hne⟩
  refine reapable_created h₀ (created_procCreateInternal _ _) ?_
  rintro (hp | ⟨w, -, ha, -⟩)
  · cases hp
  · exact ha.1 rfl

theorem recorded_boot (users : User.UserDb) : Recorded (boot users).proc fun _ => none := by
  have h₀ : Recorded { users := users } fun _ => none := fun _ h => (by cases h)
  exact h₀.keep (noNewZombie_created (created_procCreateInternal _ _))

/-- **Only zombies are reaped, and every exit code is delivered once.**  In every run whose
operations wake no waiter early and revive no zombie that is about to be reaped, each reap is of a
zombie with the PID waited for and returns the code that its termination recorded. -/
theorem reaps_deliver (users : User.UserDb) (os : List Op)
    (h : Meets recordingStep (fun s o => ReapsDue s.1 o) (boot users, fun _ => none) os) :
    Along recordingStep Delivers (boot users, fun _ => none) os := by
  have hstep : ∀ s o s', (Reapable s.1.proc ∧ Recorded s.1.proc s.2) → ReapsDue s.1 o →
      recordingStep s o = some s' →
      (Reapable s'.1.proc ∧ Recorded s'.1.proc s'.2) ∧ Delivers s o s' :=
    fun _ _ _ hI hC hs => reapsDue_step hI.1 hI.2 hC hs
  exact along_of_inv hstep ⟨reapable_boot users, recorded_boot users⟩ h

/-- A parent waits for its child, which exits; the parent goes on and reaps it. -/
def waitRun : List Op :=
  [.createKernel 0x1000 0 7, .startScheduling, .fork {} none true, .waitPid 3 {}, .timer {},
    .exit 5, .resume {}]

theorem reaps_deliver_waitRun :
    Meets recordingStep (fun s o => ReapsDue s.1 o) (boot rootOnly, fun _ => none) waitRun ∧
      Along recordingStep Delivers (boot rootOnly, fun _ => none) waitRun :=
  have h : Meets recordingStep (fun s o => ReapsDue s.1 o) (boot rootOnly, fun _ => none) waitRun := by
    decide +kernel
  ⟨h, reaps_deliver rootOnly waitRun h⟩

/-- A process waits for another, which wakes it; it goes on and reaps the live process. -/
def earlyRun : List Op :=
  [.createKernel 0x1000 0 7, .startScheduling, .waitPid 2 {}, .unblockAs 0 1, .timer {}, .resume {}]

/-- Without the condition a live process is reaped. -/
theorem live_process_reaped :
    ¬ ∀ users os, Along recordingStep Delivers (boot users, fun _ => none) os := by
  intro h
  have hrun : ¬ Along recordingStep Delivers (boot rootOnly, fun _ => none) earlyRun := by
    decide +kernel
  exact hrun (h rootOnly earlyRun)

end Blackmount.Proc
