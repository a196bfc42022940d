import Blackmount.Proc.Moves

/-!
# Proc — one process runs

Once `proc_start_scheduling` was called and control is in a process, the slot `current_proc` should
be RUNNING, be the only one that is, and the PIDs in use should be distinct and not 0.  Several
operations change the state of the running process and return to it: `proc_vfork` leaves its caller
BLOCKED, `proc_kill_as`, `proc_block` and `proc_unblock` take any PID, and a process that blocks
when no other is READY goes on BLOCKED.

`Orderly s o` says of an operation, in the state before it, that it does none of this.  In a run of
orderly operations one process runs, and as long as the PIDs have not gone round they are distinct
(`one_process_runs`).
-/

namespace Blackmount.Proc
open Blackmount.Net Blackmount.Console Blackmount.Lib

/-! ### The property and the invariant -/

/-- When control is in a process, it is the one that is RUNNING. -/
def OneRuns (k : Kernel) : Prop :=
  k.schedulingEnabled = true → ∀ c, k.currentProc = some c →
    (k.procTable c).state = .running ∧ ∀ i, (k.procTable i).state = .running → i = c

instance (k : Kernel) : Decidable (OneRuns k) := by
  delta OneRuns; infer_instance

/-- The PIDs of the slots in use are not 0 and pairwise distinct. -/
def DistinctPids (k : Kernel) : Prop :=
  ∀ i, (k.procTable i).state ≠ .unused → (k.procTable i).pid ≠ 0 ∧
    ∀ j, (k.procTable j).state ≠ .unused → (k.procTable j).pid = (k.procTable i).pid → j = i

instance (k : Kernel) : Decidable (DistinctPids k) := by
  delta DistinctPids; infer_instance

/-- The slot that is RUNNING is the current one, and no process runs before scheduling starts. -/
structure Sched (k : Kernel) : Prop where
  running : ∀ i, (k.procTable i).state = .running ↔ k.currentProc = some i
  enabled : k.currentProc ≠ none → k.schedulingEnabled = true

/-- What holds of a kernel between a block and the yield after it: no slot but the current one is
RUNNING. -/
structure HalfSched (k : Kernel) : Prop where
  running : ∀ i, (k.procTable i).state = .running → k.currentProc = some i
  enabled : k.currentProc ≠ none → k.schedulingEnabled = true

variable {k k' : Kernel}

namespace Sched

theorem half (h : Sched k) : HalfSched k := ⟨fun i => (h.running i).mp, h.enabled⟩

theorem oneRuns (h : Sched k) : OneRuns k := fun _ c hc =>
  ⟨(h.running c).mpr hc, fun i hi => by
    have hi' := (h.running i).mp hi
    rw [hc] at hi'
    exact (Option.some.inj hi').symm⟩

/-- An operation that changes neither the current slot nor which slots are RUNNING. -/
theorem keep (h : Sched k) (hc : k'.currentProc = k.currentProc)
    (he : k'.schedulingEnabled = k.schedulingEnabled)
    (hs : ∀ i, (k'.procTable i).state = .running ↔ (k.procTable i).state = .running) : Sched k' where
  running i := by rw [hs, hc]; exact h.running i
  enabled hne := by rw [he]; exact h.enabled (hc ▸ hne)

end Sched

/-! ### Scheduling -/

theorem sched_dispatch {next : Slot} (he : k.schedulingEnabled = true)
    (hnone : ∀ i, (k.procTable i).state ≠ .running) : Sched (dispatch k next) where
  running i := by
    have hcur : (dispatch k next).currentProc = some next := rfl
    rw [dispatch_procTable, hcur]
    by_cases hi : i = next
    · subst hi; simp [Pcb.setState]
    · rw [if_neg hi]
      exact ⟨fun h => absurd h (hnone i), fun h => absurd (Option.some.inj h).symm hi⟩
  enabled _ := he

/-- Saving the frame leaves no slot RUNNING. -/
theorem saved_not_running (h : HalfSched k) (frame : Registers) (i : Slot) :
    ((saved k frame).procTable i).state ≠ .running := by
  rw [saved_procTable]
  split
  · simp only [Pcb.preempt]
    split
    · simp
    · next hr => exact hr
  · next hn =>
      intro hr
      exact hn ⟨h.running i hr, by simp [hr]⟩

theorem saved_ready (h : HalfSched k) (frame : Registers) {j : Slot}
    (hj : (k.procTable j).state = .ready ∨ (k.procTable j).state = .running) :
    ((saved k frame).procTable j).state = .ready := by
  rw [saved_procTable]
  split
  · rcases hj with e | e <;> simp [Pcb.preempt, e]
  · next hn =>
      rcases hj with e | e
      · exact e
      · exact absurd ⟨h.running j e, by simp [e]⟩ hn

/-- Switching away from a process, when there is one to switch to. -/
theorem sched_switch (h : HalfSched k) (he : k.schedulingEnabled = true)
    (frame : Registers)
    (hj : ∃ j, (k.procTable j).state = .ready ∨ (k.procTable j).state = .running) :
    Sched (procScheduleInterrupt k frame) := by
  obtain ⟨j, hj⟩ := hj
  obtain ⟨n, hn⟩ := findNext_isSome (saved_ready h frame hj)
  rw [procScheduleInterrupt_eq, if_pos he, hn]
  exact sched_dispatch ((sameControl_saved k frame).enabled.trans he)
    fun i => saved_not_running h frame i

theorem sched_procScheduleInterrupt (h : Sched k) (frame : Registers) :
    Sched (procScheduleInterrupt k frame) := by
  by_cases he : k.schedulingEnabled = true
  · cases hc : k.currentProc with
    | some c => exact sched_switch h.half he frame ⟨c, .inr ((h.running c).mpr hc)⟩
    | none =>
        -- the processor is idle: nothing is saved, and a READY process may be taken up
        have hsv : saved k frame = k := by simp [saved, hc]
        rw [procScheduleInterrupt_eq, if_pos he, hsv]
        split
        · exact h
        · exact sched_dispatch he fun i hi => by
            rw [(h.running i).mp hi] at hc; cases hc
  · rw [procScheduleInterrupt_eq, if_neg he]
    exact h

theorem sched_procYield (h : HalfSched k) (point : KernelPoint) (frame : Registers)
    (hj : k.currentProc ≠ none →
      ∃ j, (k.procTable j).state = .ready ∨ (k.procTable j).state = .running) :
    Sched (procYield k point frame) := by
  have hpoint : HalfSched { k with point := point } := ⟨h.running, h.enabled⟩
  simp only [procYield]
  by_cases hc : k.currentProc = none
  · rw [if_neg fun hn => hn.2 hc]
    refine ⟨fun i => ⟨h.running i, fun hi => ?_⟩, h.enabled⟩
    rw [show k.currentProc = some i from hi] at hc
    cases hc
  · rw [if_pos ⟨h.enabled hc, hc⟩]
    exact sched_switch hpoint (h.enabled hc) frame (hj hc)

/-! ### Blocking and waking -/

/-- The PIDs an operation blocks or wakes name no unused slot; if it does not yield they do not name
the running process, and if it blocks that process another one is READY. -/
def SignalsOrderly (k : Kernel) (σ : Signals) : Prop :=
  (∀ i, NamedBy k (σ.wakes ++ σ.blocks.toList) i → (k.procTable i).state ≠ .unused) ∧
  ∀ c, k.currentProc = some c →
    if σ.yields.isSome then
      NamedBy k σ.blocks.toList c →
        ∃ j, j ≠ c ∧ ((k.procTable j).state = .ready ∨ NamedBy k σ.wakes j)
    else ¬ NamedBy k (σ.wakes ++ σ.blocks.toList) c

instance (k : Kernel) (σ : Signals) : Decidable (SignalsOrderly k σ) := by
  delta SignalsOrderly; infer_instance

theorem halfSched_touch (h : Sched k) (σ : Signals) : HalfSched (σ.touch k) where
  running i hi := by
    rw [(σ.sameControl_touch k).current]
    rw [σ.touch_procTable] at hi
    refine (h.running i).mp ?_
    split_ifs at hi
    · cases hi
    · cases hi
    · exact hi
  enabled hne := by
    rw [(σ.sameControl_touch k).enabled]
    exact h.enabled ((σ.sameControl_touch k).current ▸ hne)

theorem sched_apply (h : Sched k) {σ : Signals} (hok : SignalsOrderly k σ) :
    Sched (σ.apply k) := by
  have hhalf := halfSched_touch h σ
  have hcur := (σ.sameControl_touch k).current
  have happly : σ.apply k = procYield? (σ.touch k) σ.yields := rfl
  rw [happly]
  cases hy : σ.yields with
  | none =>
      -- the running process is not touched
      refine ⟨fun i => ⟨hhalf.running i, fun hi => ?_⟩, hhalf.enabled⟩
      have hci : k.currentProc = some i := hcur.symm.trans hi
      have hnot := hok.2 i hci
      rw [hy] at hnot
      simp only [Option.isSome_none, Bool.false_eq_true, if_false, namedBy_append, not_or] at hnot
      rw [procYield?, σ.touch_procTable, if_neg hnot.2, if_neg hnot.1]
      exact (h.running i).mpr hci
  | some y =>
      refine sched_procYield hhalf y.1 y.2 fun hne => ?_
      obtain ⟨c, hc⟩ := Option.ne_none_iff_exists'.mp (hcur ▸ hne)
      by_cases hb : NamedBy k σ.blocks.toList c
      · have hready := hok.2 c hc
        rw [hy] at hready
        obtain ⟨j, hjc, hj⟩ := hready hb
        -- the slot blocked is the current one, so `j` is not blocked
        have hnb : ¬ NamedBy k σ.blocks.toList j := by
          rintro ⟨pid, hmem, hj'⟩
          obtain ⟨pid', hmem', hc'⟩ := hb
          have : pid = pid' := by
            cases hbl : σ.blocks with
            | none => rw [hbl] at hmem; cases hmem
            | some q =>
                rw [hbl] at hmem hmem'
                simp only [Option.toList_some, List.mem_singleton] at hmem hmem'
                rw [hmem, hmem']
          rw [this, hc'] at hj'
          exact hjc (Option.some.inj hj').symm
        refine ⟨j, .inl ?_⟩
        rw [σ.touch_procTable, if_neg hnb]
        split
        · rfl
        · next hnw => exact hj.resolve_right hnw
      · refine ⟨c, ?_⟩
        rw [σ.touch_procTable, if_neg hb]
        split
        · exact .inl rfl
        · exact .inr ((h.running c).mpr hc)

/-! ### Termination -/

/-- A process may be killed: it exists, and the running process is neither it nor below it nor its
waiting parent. -/
def TerminateOrderly (k : Kernel) (i : Slot) : Prop :=
  (k.procTable i).state ≠ .unused ∧ ∀ c, k.currentProc = some c →
    c ≠ i ∧ ¬ Descends k (k.procTable i).pid c ∧
      ¬ ((k.procTable c).pid = (k.procTable i).ppid ∧
        (k.procTable c).waitingFor = (k.procTable i).pid)

/-- Termination makes no slot RUNNING. -/
theorem procTerminate_running {i j : Slot} {code : UInt64}
    (h : procTerminate k i code = some k') (hj : (k'.procTable j).state = .running) :
    j ≠ i ∧ (k.procTable j).state = .running := by
  cases fate_procTerminate h j with
  | erased _ _ _ hst => rw [hst] at hj; cases hj
  | reborn _ _ _ _ hst => rw [hst] at hj; cases hj
  | woken _ hst => rw [hst] at hj; cases hj
  | kept _ hst =>
      rw [hst, deathbed] at hj
      split at hj
      · cases hj
      · next hne => exact ⟨hne, hj⟩

theorem sched_procTerminate {i : Slot} {code : UInt64} (hs : Sched k)
    (hok : TerminateOrderly k i) (h : procTerminate k i code = some k') : Sched k' := by
  have hctl := sameControl_procTerminate h
  refine hs.keep hctl.current hctl.enabled fun j => ⟨fun hj => (procTerminate_running h hj).2, ?_⟩
  intro hj
  obtain ⟨hne, hd, hw⟩ := hok.2 j ((hs.running j).mp hj)
  cases fate_procTerminate h j with
  | erased _ hd' => exact absurd hd' hd
  | reborn _ hd' => exact absurd hd' hd
  | kept _ hst => rw [hst, deathbed, if_neg hne]; exact hj
  | woken _ _ _ hwhy =>
      rw [deathbed, if_neg hne] at hwhy
      rcases hwhy with ⟨hb, -⟩ | ⟨hwait, hpid⟩
      · rw [hj] at hb; cases hb
      · exact absurd ⟨hpid, hwait⟩ hw

theorem sched_procKillAs {actor pid : Int32} (hs : Sched k)
    (hok : procCanAct k actor pid = true →
      ∀ i, procFindIndex k pid.toUInt32 = some i → TerminateOrderly k i)
    (h : procKillAs k actor pid = some k') : Sched k' := by
  simp only [procKillAs] at h
  split at h
  · next ha =>
      split at h
      · cases h; exact hs
      · next i hi => exact sched_procTerminate hs (hok ha i hi) h
  · cases h; exact hs

/-- A process that exits hands the processor on or leaves it idle. -/
theorem sched_procExit {code : UInt64} (hs : Sched k)
    (h : procExit k code = some k') : Sched k' := by
  simp only [procExit] at h
  split at h
  · cases h; exact hs.keep rfl rfl fun _ => .rfl
  · next i hi =>
      obtain ⟨k₁, h₁, rfl⟩ := Option.map_eq_some_iff.mp h
      have hctl := sameControl_procTerminate h₁
      have he : k₁.schedulingEnabled = true := hctl.enabled.trans (hs.enabled (by simp [hi]))
      have hnone : ∀ j, (k₁.procTable j).state ≠ .running := by
        intro j hj
        obtain ⟨hne, hr⟩ := procTerminate_running h₁ hj
        have hcur := (hs.running j).mp hr
        rw [hi] at hcur
        exact hne (Option.some.inj hcur).symm
      split
      · next n _ =>
          have hd : Sched (dispatch k₁ n) := sched_dispatch he hnone
          split
          · exact hd
          · split
            · exact hd.keep rfl rfl fun _ => .rfl
            · exact hd
      · split
        · exact ⟨fun j => ⟨fun hj => absurd hj (hnone j), fun hj => by cases hj⟩,
            fun hne => absurd rfl hne⟩
        · exact ⟨fun j => ⟨fun hj => absurd hj (hnone j), fun hj => by cases hj⟩,
            fun hne => absurd rfl hne⟩

/-! ### Waiting -/

/-- If the caller of `proc_wait_pid` is to be blocked, another process is READY. -/
def WaitOrderly (k : Kernel) (pid : UInt32) : Prop :=
  ∀ i, procFindIndex k pid = some i → (k.procTable i).state ≠ .zombie →
    ∀ c, k.currentProc = some c → procFindIndex k (k.procTable c).pid = some c →
      ∃ j, j ≠ c ∧ (k.procTable j).state = .ready

instance (k : Kernel) (pid : UInt32) : Decidable (WaitOrderly k pid) := by
  delta WaitOrderly; infer_instance

theorem sched_procReap {i : Slot} (hs : Sched k) (hi : k.currentProc ≠ some i) :
    Sched (procReap k i) := by
  have hctl := sameControl_pcbRelease k i
  refine hs.keep hctl.current hctl.enabled fun j => ?_
  simp only [procReap, pcbRelease_procTable]
  split
  · next hj =>
      subst hj
      have hr : (k.procTable j).state ≠ .running := fun hr => hi ((hs.running j).mp hr)
      simp [Pcb.clearHead, hr]
  · exact .rfl

theorem sched_procWaitPid {pid : UInt64} {frame : Registers} (hs : Sched k)
    (hok : WaitOrderly k pid.toUInt32) : Sched (procWaitPid k pid frame).1 := by
  simp only [procWaitPid]
  split
  · exact hs
  · next i hi =>
      split
      · next hz =>
          split
          · exact hs
          · next p hp =>
              set k₁ := k.modify p fun q => (q.setWaitingFor pid.toUInt32).setState .blocked with hk₁
              have hother : ∀ j, j ≠ p → k₁.procTable j = k.procTable j := fun j hj =>
                Kernel.modify_other k _ hj
              have hhalf : HalfSched k₁ := by
                refine ⟨fun j hj => (hs.running j).mp ?_, hs.enabled⟩
                by_cases hjp : j = p
                · subst hjp; simp [hk₁, Pcb.setState] at hj
                · rwa [hother j hjp] at hj
              refine sched_procYield hhalf _ _ fun hne => ?_
              obtain ⟨c, hc⟩ := Option.ne_none_iff_exists'.mp hne
              have hc : k.currentProc = some c := hc
              by_cases hpc : p = c
              · subst hpc
                have hself : procFindIndex k (k.procTable p).pid = some p := by
                  simpa [procGetCurrentPid, hc] using hp
                obtain ⟨j, hj, hr⟩ := hok i hi hz p hc hself
                exact ⟨j, .inl (by rw [hother j hj]; exact hr)⟩
              · exact ⟨c, .inr (by
                  rw [hother c fun e => hpc e.symm]; exact (hs.running c).mpr hc)⟩
      · next hz =>
          refine sched_procReap hs fun hc => ?_
          rw [(hs.running i).mpr hc] at hz
          exact hz (by simp)

theorem sched_procStartScheduling (hs : Sched k)
    (hok : k.currentProc = none ∨ ∀ i, (k.procTable i).state ≠ .ready) :
    Sched (procStartScheduling k) := by
  have hon : Sched { k with schedulingEnabled := true } := ⟨hs.running, fun _ => rfl⟩
  have hidle : ∀ i, (k.procTable i).state = .ready →
      ∀ j, (k.procTable j).state ≠ .running := by
    intro i hi j hj
    rcases hok with e | e
    · rw [(hs.running j).mp hj] at e; cases e
    · exact e i hi
  simp only [procStartScheduling]
  split
  · next i hi =>
      have hr := List.find?_some hi
      simp only [Bool.and_eq_true, beq_iff_eq] at hr
      exact sched_dispatch rfl (hidle i hr.1)
  · split
    · next i hi =>
        have hr := List.find?_some hi
        simp only [beq_iff_eq] at hr
        refine ⟨fun j => ?_, fun _ => rfl⟩
        rw [Kernel.modify_apply]
        split
        · next hj => subst hj; simp [Pcb.setState]
        · next hj =>
            exact ⟨fun h => absurd h (hidle i hr j), fun h => absurd (Option.some.inj h).symm hj⟩
    · exact hon

/-! ### Creation -/

theorem sched_created (hs : Sched k) (h : CreatedBeside k k') : Sched k' := by
  refine hs.keep h.current h.enabled fun j => ?_
  cases h.created with
  | nothing hslot => rw [(hslot j).state]
  | @born slot hu hnew hslot =>
      by_cases hj : j = slot
      · subst hj; simp [hu, hnew.state]
      · rw [(hslot j hj).state]

/-- There is no process to make a vfork child, or no slot for it. -/
def NoVfork (k : Kernel) : Prop := k.currentProc = none ∨ pcbAllocSlot k = none

instance (k : Kernel) : Decidable (NoVfork k) := by
  delta NoVfork; infer_instance

theorem procVfork_of_noVfork (h : NoVfork k) (frame : Registers) :
    procVfork k frame = (k, -1) := by
  simp only [procVfork]
  cases hc : k.currentProc with
  | none => rfl
  | some c =>
      rcases h with e | e
      · rw [hc] at e; cases e
      · simp only [e]

/-! ### PIDs -/

/-- The PIDs given out so far are below `next_pid`, each to one slot; unused slots are cleared. -/
structure Numbered (k : Kernel) : Prop where
  cleared : Cleared k
  below : ∀ i, (k.procTable i).state ≠ .unused →
    (k.procTable i).pid ≠ 0 ∧ (k.procTable i).pid.toNat < k.nextPid.toNat
  distinct : ∀ i j, (k.procTable i).state ≠ .unused → (k.procTable j).state ≠ .unused →
    (k.procTable j).pid = (k.procTable i).pid → j = i

theorem Numbered.distinctPids (h : Numbered k) : DistinctPids k := fun i hi =>
  ⟨(h.below i hi).1, fun j hj => h.distinct i j hi hj⟩

/-- A slot with a PID that is not 0 is in use. -/
theorem Numbered.used (h : Numbered k) {i : Slot} (hi : (k.procTable i).pid ≠ 0) :
    (k.procTable i).state ≠ .unused := fun hu => hi (h.cleared i hu).1

/-- No slot comes into use or gets another PID. -/
structure Tracks (k k' : Kernel) : Prop where
  nextPid : k'.nextPid = k.nextPid
  used : ∀ i, (k'.procTable i).state ≠ .unused →
    (k.procTable i).state ≠ .unused ∧ (k'.procTable i).pid = (k.procTable i).pid
  cleared : Cleared k → Cleared k'

namespace Tracks

theorem refl (k : Kernel) : Tracks k k := ⟨rfl, fun _ h => ⟨h, rfl⟩, fun h => h⟩

theorem trans {a b c : Kernel} (h₁ : Tracks a b) (h₂ : Tracks b c) : Tracks a c where
  nextPid := h₂.nextPid.trans h₁.nextPid
  used i hi := by
    obtain ⟨hb, hp⟩ := h₂.used i hi
    obtain ⟨ha, hq⟩ := h₁.used i hb
    exact ⟨ha, hp.trans hq⟩
  cleared h := h₂.cleared (h₁.cleared h)

theorem of_calm (h : Calm k k') (hn : k'.nextPid = k.nextPid) : Tracks k k' where
  nextPid := hn
  used i hi := by
    refine ⟨fun hu => hi ?_, h.pid i⟩
    rw [h.dead i fun ha => ha.1 hu]
    exact hu
  cleared := h.kept.cleared

/-- A slot in use is changed, and keeps its PID. -/
theorem modify {i : Slot} {f : Pcb → Pcb} (hi : (k.procTable i).state ≠ .unused)
    (hf : (f (k.procTable i)).state ≠ .unused)
    (hp : (f (k.procTable i)).pid = (k.procTable i).pid) : Tracks k (k.modify i f) where
  nextPid := rfl
  used j hj := by
    rw [Kernel.modify_apply] at hj ⊢
    split at hj
    · next e => rw [if_pos e, e]; exact ⟨hi, hp⟩
    · next e => rw [if_neg e]; exact ⟨hj, rfl⟩
  cleared hc j hj := by
    rw [Kernel.modify_apply] at hj ⊢
    split at hj
    · exact absurd hj hf
    · next e => rw [if_neg e]; exact hc j hj

end Tracks

theorem Numbered.tracks (h : Numbered k) (ht : Tracks k k') : Numbered k' where
  cleared := ht.cleared h.cleared
  below i hi := by
    obtain ⟨hu, hp⟩ := ht.used i hi
    rw [hp, ht.nextPid]
    exact h.below i hu
  distinct i j hi hj he := by
    obtain ⟨hui, hpi⟩ := ht.used i hi
    obtain ⟨huj, hpj⟩ := ht.used j hj
    rw [hpi, hpj] at he
    exact h.distinct i j hui huj he

theorem nextPid_procScheduleInterrupt (k : Kernel) (frame : Registers) :
    (procScheduleInterrupt k frame).nextPid = k.nextPid := by
  rw [procScheduleInterrupt_eq]
  split
  · split
    · exact (sameControl_saved k frame).nextPid
    · exact (sameControl_saved k frame).nextPid
  · rfl

theorem nextPid_procYield (k : Kernel) (point : KernelPoint) (frame : Registers) :
    (procYield k point frame).nextPid = k.nextPid := by
  simp only [procYield]
  split
  · exact nextPid_procScheduleInterrupt _ _
  · rfl

theorem tracks_procYield (k : Kernel) (point : KernelPoint) (frame : Registers) :
    Tracks k (procYield k point frame) :=
  .of_calm (calm_procYield k point frame) (nextPid_procYield k point frame)

theorem tracks_apply {σ : Signals}
    (hok : ∀ i, NamedBy k (σ.wakes ++ σ.blocks.toList) i → (k.procTable i).state ≠ .unused) :
    Tracks k (σ.apply k) := by
  have htouch : Tracks k (σ.touch k) := by
    refine ⟨(σ.sameControl_touch k).nextPid, fun i hi => ?_, fun hc i hi => ?_⟩
    · rw [σ.touch_procTable] at hi ⊢
      split_ifs at hi ⊢ with hb hw
      · exact ⟨hok i (namedBy_append.mpr (.inr hb)), rfl⟩
      · exact ⟨hok i (namedBy_append.mpr (.inl hw)), rfl⟩
      · exact ⟨hi, rfl⟩
    · rw [σ.touch_procTable] at hi ⊢
      split_ifs at hi ⊢
      · cases hi
      · cases hi
      · exact hc i hi
  have happly : σ.apply k = procYield? (σ.touch k) σ.yields := rfl
  rw [happly]
  cases σ.yields with
  | none => exact htouch
  | some y => exact htouch.trans (tracks_procYield _ _ _)

theorem tracks_procTerminate {i : Slot} {code : UInt64} (hn : Numbered k)
    (hi : (k.procTable i).state ≠ .unused) (h : procTerminate k i code = some k') : Tracks k k' := by
  have hpid : (k.procTable i).pid ≠ 0 := (hn.below i hi).1
  have hbed : ∀ j, (deathbed k i code.toUInt32 j).state ≠ .unused →
      (k.procTable j).state ≠ .unused := by
    intro j hj
    rw [deathbed] at hj
    split at hj
    · next e => subst e; exact hi
    · exact hj
  have hbedpid : ∀ j, (deathbed k i code.toUInt32 j).pid = (k.procTable j).pid := by
    intro j
    rw [deathbed]
    split <;> rfl
  refine ⟨(sameControl_procTerminate h).nextPid, fun j hj => ?_, fun hc j hj => ?_⟩
  · cases fate_procTerminate h j with
    | erased _ _ _ hst => exact absurd hst hj
    | reborn _ _ h0 => exact absurd h0 hpid
    | kept hid hst => exact ⟨hbed j (hst ▸ hj), hid.pid.trans (hbedpid j)⟩
    | woken hid _ _ hwhy =>
        refine ⟨hbed j fun hu => ?_, hid.pid.trans (hbedpid j)⟩
        rcases hwhy with ⟨hb, -⟩ | ⟨hw, -⟩
        · rw [hu] at hb; cases hb
        · -- an unused slot waits for PID 0, which is not that of the process that dies
          rw [deathbed] at hu hw
          split at hu
          · cases hu
          · next hne =>
              rw [if_neg hne, (hn.cleared j hu).2] at hw
              exact hpid hw.symm
  · cases fate_procTerminate h j with
    | erased _ _ hid _ hw => exact ⟨hid.pid, hw⟩
    | reborn _ _ h0 => exact absurd h0 hpid
    | woken _ hst => rw [hst] at hj; cases hj
    | kept hid hst hw =>
        rw [hst, deathbed] at hj
        split at hj
        · cases hj
        · next hne =>
            have hcj := hc j hj
            rw [hid.pid, hw, deathbed, if_neg hne]
            exact hcj

theorem tracks_procReap (k : Kernel) (i : Slot) : Tracks k (procReap k i) where
  nextPid := (sameControl_pcbRelease k i).nextPid
  used j hj := by
    simp only [procReap, pcbRelease_procTable] at hj ⊢
    split at hj
    · exact absurd rfl hj
    · next e => rw [if_neg e]; exact ⟨hj, rfl⟩
  cleared := (deadStay_procReap (o := .resume {}) rfl k i).2

theorem tracks_procWaitPid {pid : UInt64} {frame : Registers} (hn : Numbered k)
    (hs : Sched k) : Tracks k (procWaitPid k pid frame).1 := by
  simp only [procWaitPid]
  split
  · exact .refl k
  · split
    · split
      · exact .refl k
      · next p hp =>
          have hpid := procFindIndex_pid hp
          have hu : (k.procTable p).state ≠ .unused := by
            refine hn.used ?_
            rw [hpid]
            cases hc : k.currentProc with
            | none =>
                simp only [procGetCurrentPid, hc]
                decide
            | some c =>
                have hr := (hs.running c).mpr hc
                simpa [procGetCurrentPid, hc] using (hn.below c (by simp [hr])).1
          have hm : Tracks k (k.modify p fun q => (q.setWaitingFor pid.toUInt32).setState .blocked) :=
            .modify hu (by simp [Pcb.setState]) rfl
          exact hm.trans (tracks_procYield _ _ _)
    · exact tracks_procReap k _

/-- A new process takes the next PID. -/
theorem Numbered.created (h : Numbered k) (hc : CreatedBeside k k')
    (hlt : k.nextPid.toNat + 1 < 2 ^ 32) (h0 : k.nextPid ≠ 0) : Numbered k' := by
  cases hc.created with
  | nothing hslot hp =>
      refine h.tracks ⟨hp, fun i hi => ?_, fun hcl i hi => ?_⟩
      · rw [(hslot i).state] at hi
        exact ⟨hi, (hslot i).pid⟩
      · rw [(hslot i).state] at hi
        rw [(hslot i).pid, (hslot i).waitingFor]
        exact hcl i hi
  | @born slot hu hnew hslot hp =>
      have hnext : k'.nextPid.toNat = k.nextPid.toNat + 1 := by
        rw [hp, UInt32.toNat_add]
        exact Nat.mod_eq_of_lt (by simpa using hlt)
      -- a PID given out before is below the new one
      have hold : ∀ j, j ≠ slot → (k'.procTable j).state ≠ .unused →
          (k.procTable j).state ≠ .unused ∧ (k'.procTable j).pid = (k.procTable j).pid ∧
            (k'.procTable j).pid ≠ k.nextPid := by
        intro j hj hused
        rw [(hslot j hj).state] at hused
        refine ⟨hused, (hslot j hj).pid, fun e => ?_⟩
        have hbelow := (h.below j hused).2
        rw [← (hslot j hj).pid, e] at hbelow
        exact Nat.lt_irrefl _ hbelow
      refine ⟨fun j hj => ?_, fun j hj => ?_, fun i j hi hj he => ?_⟩
      · by_cases e : j = slot
        · subst e; rw [hnew.state] at hj; cases hj
        · rw [(hslot j e).state] at hj
          rw [(hslot j e).pid, (hslot j e).waitingFor]
          exact h.cleared j hj
      · rw [hnext]
        by_cases e : j = slot
        · subst e; rw [hnew.pid]; exact ⟨h0, Nat.lt_succ_self _⟩
        · obtain ⟨hused, hpid, -⟩ := hold j e hj
          rw [hpid]
          exact ⟨(h.below j hused).1, Nat.lt_succ_of_lt (h.below j hused).2⟩
      · by_cases ei : i = slot <;> by_cases ej : j = slot
        · rw [ei, ej]
        · subst ei; rw [hnew.pid] at he; exact absurd he (hold j ej hj).2.2
        · subst ej; rw [hnew.pid] at he; exact absurd he.symm (hold i ei hi).2.2
        · obtain ⟨hui, hpi, -⟩ := hold i ei hi
          obtain ⟨huj, hpj, -⟩ := hold j ej hj
          rw [hpi, hpj] at he
          exact h.distinct i j hui huj he

/-! ### The machine -/

/-- The operation neither changes the running process's state nor runs another beside it, and
touches no unused slot: a condition on the state before it. -/
def Orderly (s : Sys) (o : Op) : Prop :=
  SignalsOrderly s.proc (signals s o) ∧
  match o with
  | .vfork _ => NoVfork s.proc
  | .clone _ flags _ _ _ => flags &&& cloneVfork ≠ 0 → NoVfork s.proc
  | .killAs actor pid => procCanAct s.proc actor pid = true →
      ∀ i, procFindIndex s.proc pid.toUInt32 = some i → TerminateOrderly s.proc i
  | .waitPid pid _ => WaitOrderly s.proc pid.toUInt32
  | .waitPidAs actor pid _ =>
      procCanAct s.proc actor pid.toUInt32.toInt32 = true → WaitOrderly s.proc pid.toUInt32
  | .resume _ => ∀ pid, s.proc.point = .waitPid pid →
      ∀ i, procFindIndex s.proc pid = some i → s.proc.currentProc ≠ some i
  | .startScheduling =>
      s.proc.currentProc = none ∨ ∀ i, (s.proc.procTable i).state ≠ .ready
  | _ => True

variable {s s' : Sys}

theorem Orderly.clearCalls {o : Op} (h : Orderly s o) : Orderly (Sys.clearCalls s) o := by
  cases o <;> try exact h
  case killAs actor pid =>
      refine ⟨h.1, fun ha i hi => ⟨(h.2 ha i hi).1, fun c hc => ?_⟩⟩
      obtain ⟨hne, hd, hw⟩ := (h.2 ha i hi).2 c hc
      refine ⟨hne, fun hd' => hd (hd'.mono fun m hm => ?_), hw⟩
      exact ⟨hm, rfl, rfl⟩

theorem sched_perform {o : Op} (hs : Sched s.proc) (hok : Orderly s o) (h : Performed s o k') :
    Sched k' := by
  have hs' : Sched { s.proc with point := .process } := ⟨hs.running, hs.enabled⟩
  cases h with
  | signals => exact sched_apply hs hok.1
  | creates _ _ hc => exact sched_created hs hc
  | vfork frame => rw [procVfork_of_noVfork hok.2]; exact hs
  | cloneVfork frame _ _ _ hv => rw [procVfork_of_noVfork (hok.2 hv)]; exact hs
  | exit hk => exact sched_procExit hs hk
  | killAs hk => exact sched_procKillAs hs hok.2 hk
  | waitPid => exact sched_procWaitPid hs hok.2
  | waitPidAs _ ha => exact sched_procWaitPid hs (hok.2 ha)
  | refused => exact hs
  | gone => exact hs'
  | reaps _ hp hi => exact sched_procReap hs' (hok.2 _ hp _ hi)
  | resumes => exact sched_apply hs' hok.1
  | timer frame => exact sched_procScheduleInterrupt hs frame
  | startScheduling => exact sched_procStartScheduling hs hok.2

theorem tracks_procExit {code : UInt64} (hn : Numbered k) (hs : Sched k) (h : procExit k code = some k') :
    Tracks k k' := by
  simp only [procExit] at h
  split at h
  · cases h; exact .of_calm (.of_table rfl) rfl
  · next i hi =>
      obtain ⟨k₁, h₁, rfl⟩ := Option.map_eq_some_iff.mp h
      have hused : (k.procTable i).state ≠ .unused := by
        rw [(hs.running i).mpr hi]; simp
      refine (tracks_procTerminate hn hused h₁).trans ?_
      split
      · next n hnx =>
          have hd : Tracks k₁ (dispatch k₁ n) :=
            .of_calm (calm_dispatch (findNext_ready hnx)) rfl
          split
          · exact hd
          · split
            · exact hd.trans (.of_calm (.of_table rfl) rfl)
            · exact hd
      · split <;> exact .of_calm (.of_table rfl) rfl

/-- A PID is given out to a process that is created, or to none. -/
theorem tracks_or_created {o : Op} (hn : Numbered s.proc) (hs : Sched s.proc) (hok : Orderly s o)
    (h : Performed s o k') : Tracks s.proc k' ∨ CreatedBeside s.proc k' := by
  have hpoint : Tracks s.proc { s.proc with point := .process } :=
    ⟨rfl, fun _ hi => ⟨hi, rfl⟩, fun hc => hc⟩
  cases h with
  | signals => exact .inl (tracks_apply hok.1.1)
  | creates _ _ hc => exact .inr hc
  | vfork frame => rw [procVfork_of_noVfork hok.2]; exact .inl (.refl _)
  | cloneVfork frame _ _ _ hv => rw [procVfork_of_noVfork (hok.2 hv)]; exact .inl (.refl _)
  | exit hk => exact .inl (tracks_procExit hn hs hk)
  | killAs hk =>
      simp only [procKillAs] at hk
      split at hk
      · next ha =>
          split at hk
          · cases hk; exact .inl (.refl _)
          · next i hi => exact .inl (tracks_procTerminate hn (hok.2 ha i hi).1 hk)
      · cases hk; exact .inl (.refl _)
  | waitPid | waitPidAs => exact .inl (tracks_procWaitPid hn hs)
  | refused => exact .inl (.refl _)
  | gone => exact .inl hpoint
  | reaps => exact .inl (hpoint.trans (tracks_procReap _ _))
  | resumes => exact .inl (hpoint.trans (tracks_apply hok.1.1))
  | timer =>
      exact .inl (.of_calm (calm_procScheduleInterrupt _ _) (nextPid_procScheduleInterrupt _ _))
  | startScheduling =>
      refine .inl (.of_calm (calm_procStartScheduling _) ?_)
      simp only [procStartScheduling]
      split
      · rfl
      · split <;> rfl

/-- The processes a run creates: the steps that give out a PID. -/
def creations : Sys → List Op → Nat
  | _, [] => 0
  | s, o :: os =>
      match step s o with
      | none => 0
      | some s' => (if s'.proc.nextPid = s.proc.nextPid then 0 else 1) + creations s' os

theorem sched_step {o : Op} (hs : Sched s.proc) (hok : Orderly s o)
    (h : step s o = some s') : Sched s'.proc := by
  simp only [step] at h
  split at h
  · cases h
  · have hs₀ : Sched (Sys.clearCalls s).proc := ⟨hs.running, hs.enabled⟩
    exact sched_perform hs₀ hok.clearCalls (performed h)

/-- One step: no PID is given out, or the next one is. -/
theorem numbered_step {o : Op} (hn : Numbered s.proc) (hs : Sched s.proc)
    (hok : Orderly s o) (h0 : s.proc.nextPid ≠ 0)
    (hlt : s.proc.nextPid.toNat + (if s'.proc.nextPid = s.proc.nextPid then 0 else 1) < 2 ^ 32)
    (h : step s o = some s') :
    Numbered s'.proc ∧ s'.proc.nextPid.toNat =
      s.proc.nextPid.toNat + (if s'.proc.nextPid = s.proc.nextPid then 0 else 1) := by
  simp only [step] at h
  split at h
  · cases h
  have hn₀ : Numbered (Sys.clearCalls s).proc := ⟨hn.cleared, hn.below, hn.distinct⟩
  have hs₀ : Sched (Sys.clearCalls s).proc := ⟨hs.running, hs.enabled⟩
  have hkeep : Tracks (Sys.clearCalls s).proc s'.proc → Numbered s'.proc ∧ s'.proc.nextPid.toNat =
      s.proc.nextPid.toNat + (if s'.proc.nextPid = s.proc.nextPid then 0 else 1) := fun ht => by
    have hp : s'.proc.nextPid = s.proc.nextPid := ht.nextPid
    refine ⟨hn₀.tracks ht, ?_⟩
    rw [if_pos hp, hp, Nat.add_zero]
  rcases tracks_or_created hn₀ hs₀ hok.clearCalls (performed h) with ht | hc
  · exact hkeep ht
  by_cases hp : s'.proc.nextPid = s.proc.nextPid
  · cases hc.created with
    | nothing hslot hp' =>
        refine hkeep ⟨hp', fun i hi => ?_, fun hcl i hi => ?_⟩
        · rw [(hslot i).state] at hi
          exact ⟨hi, (hslot i).pid⟩
        · rw [(hslot i).state] at hi
          rw [(hslot i).pid, (hslot i).waitingFor]
          exact hcl i hi
    | born _ _ _ hp' =>
        have hself : s.proc.nextPid = s.proc.nextPid + 1 := hp.symm.trans hp'
        exact absurd hself (by simp)
  · rw [if_neg hp] at hlt ⊢
    refine ⟨hn₀.created hc hlt h0, ?_⟩
    cases hc.created with
    | nothing _ hp' => exact absurd hp' hp
    | born _ _ _ hp' =>
        have hnext : s'.proc.nextPid = s.proc.nextPid + 1 := hp'
        rw [hnext, UInt32.toNat_add]
        exact Nat.mod_eq_of_lt (by simpa using hlt)

/-- PIDs along a run that has enough of them left. -/
theorem distinctPids_along : ∀ {os : List Op} {s : Sys}, Numbered s.proc → Sched s.proc →
    s.proc.nextPid ≠ 0 → s.proc.nextPid.toNat + creations s os < 2 ^ 32 →
    Meets step Orderly s os → Along step (fun _ _ s' => DistinctPids s'.proc) s os := by
  intro os
  induction os with
  | nil => intro s _ _ _ _ _; trivial
  | cons o os ih =>
      intro s hn hs h0 hlt hok s' h
      simp only [creations, h] at hlt
      obtain ⟨hn', hp⟩ := numbered_step hn hs hok.1 h0 (by omega) h
      refine ⟨hn'.distinctPids, ih hn' (sched_step hs hok.1 h) ?_ (by omega) (hok.2 s' h)⟩
      intro e
      have hpos : 0 < s.proc.nextPid.toNat := by
        refine Nat.pos_of_ne_zero fun hz => h0 ?_
        exact UInt32.toNat_inj.mp hz
      rw [e] at hp
      simp at hp
      omega

theorem sched_boot (users : User.UserDb) : Sched (boot users).proc := by
  have h₀ : Sched { users := users } :=
    ⟨fun _ => ⟨fun h => (by cases h), fun h => (by cases h)⟩, fun h => absurd rfl h⟩
  exact sched_created h₀ (created_procCreateInternal _ _)

theorem numbered_boot (users : User.UserDb) : Numbered (boot users).proc := by
  have h₀ : Numbered { users := users } :=
    ⟨fun _ _ => ⟨rfl, rfl⟩, fun _ h => absurd rfl h, fun _ _ h => absurd rfl h⟩
  exact h₀.created (created_procCreateInternal _ _) (by simp) (by simp)

/-- **One process runs.**  In every run of orderly operations the process control is in is the one
that is RUNNING; and if the run creates fewer than 2³² - 1 processes, the idle process among them,
the PIDs in use are distinct and not 0. -/
theorem one_process_runs (users : User.UserDb) (os : List Op)
    (h : Meets step Orderly (boot users) os) :
    Along step (fun _ _ s' => OneRuns s'.proc) (boot users) os ∧
      (1 + creations (boot users) os < 2 ^ 32 - 1 →
        Along step (fun _ _ s' => DistinctPids s'.proc) (boot users) os) := by
  constructor
  · have hstep : ∀ s o s', Sched s.proc → Orderly s o → step s o = some s' →
        Sched s'.proc ∧ OneRuns s'.proc := fun s o s' hI hC hs =>
      have hs' := sched_step hI hC hs
      ⟨hs', hs'.oneRuns⟩
    exact along_of_inv hstep (sched_boot users) h
  · intro hfew
    have hnext : (boot users).proc.nextPid = 2 := rfl
    refine distinctPids_along (numbered_boot users) (sched_boot users) (by simp [hnext]) ?_ h
    rw [hnext]
    simp only [UInt32.reduceToNat]
    omega

/-- Two processes take turns; the second exits and the first reaps it. -/
def turnsRun : List Op :=
  [.createKernel 0x1000 0 7, .startScheduling, .timer {}, .exit 3, .waitPid 2 {}]

theorem one_process_runs_turnsRun : Meets step Orderly (boot rootOnly) turnsRun ∧
    Along step (fun _ _ s' => OneRuns s'.proc) (boot rootOnly) turnsRun ∧
    Along step (fun _ _ s' => DistinctPids s'.proc) (boot rootOnly) turnsRun := by
  have h : Meets step Orderly (boot rootOnly) turnsRun := by
    refine ⟨⟨by decide +kernel, trivial⟩, fun s₁ h₁ => ⟨⟨?_, ?_⟩, fun s₂ h₂ => ⟨⟨?_, trivial⟩,
      fun s₃ h₃ => ⟨⟨?_, trivial⟩, fun s₄ h₄ => ⟨?_, fun _ _ => trivial⟩⟩⟩⟩⟩
    all_goals cases h₁
    · decide +kernel
    · exact .inl rfl
    all_goals cases h₂
    · decide +kernel
    all_goals cases h₃
    · decide +kernel
    have hlast : ∀ s ∈ some s₄, SignalsOrderly s.proc (signals s (.waitPid 2 {})) ∧
        WaitOrderly s.proc 2 := by
      rw [← h₄]
      decide +kernel
    exact hlast s₄ rfl
  have hrun := one_process_runs rootOnly turnsRun h
  exact ⟨h, hrun.1, hrun.2 (by decide +kernel)⟩

/-- A process makes a vfork child and goes on, BLOCKED. -/
def vforkRun : List Op := [.startScheduling, .vfork {}]

/-- Without the condition the running process need not be RUNNING. -/
theorem vfork_returns_blocked :
    ¬ ∀ users os, Along step (fun _ _ s' => OneRuns s'.proc) (boot users) os ∧
      (1 + creations (boot users) os < 2 ^ 32 - 1 →
        Along step (fun _ _ s' => DistinctPids s'.proc) (boot users) os) := by
  intro h
  have hrun := (h rootOnly vforkRun).1
  revert hrun
  decide +kernel

end Blackmount.Proc
