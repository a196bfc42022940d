import Blackmount.Proc.Ops

/-!
# Proc — operations that leave the dead alone

A slot is *alive* when it is neither UNUSED nor ZOMBIE.  Blocking, waking and scheduling move alive
slots among READY, RUNNING and BLOCKED; `Calm` is the relation between the process tables before
and after such operations.  `proc_block` and `proc_unblock` assign the state of whatever slot
`proc_find_index` finds, so they are calm only at a PID that names no dead slot (`AliveAt`).
-/

namespace Blackmount.Proc
/-- Neither UNUSED nor ZOMBIE. -/
def Alive (k : Kernel) (i : Slot) : Prop :=
  (k.procTable i).state ≠ .unused ∧ (k.procTable i).state ≠ .zombie

instance (k : Kernel) (i : Slot) : Decidable (Alive k i) := by
  delta Alive; infer_instance

/-- The slot `proc_find_index` finds for `pid`, if there is one, is alive. -/
def AliveAt (k : Kernel) (pid : UInt32) : Prop := ∀ i, procFindIndex k pid = some i → Alive k i

instance (k : Kernel) (pid : UInt32) : Decidable (AliveAt k pid) := by
  delta AliveAt; infer_instance

/-- PIDs stay, dead slots keep their state, alive slots stay alive. -/
structure Calm (k k' : Kernel) : Prop where
  pid : ∀ i, (k'.procTable i).pid = (k.procTable i).pid
  waitingFor : ∀ i, ¬ Alive k i → (k'.procTable i).waitingFor = (k.procTable i).waitingFor
  dead : ∀ i, ¬ Alive k i → (k'.procTable i).state = (k.procTable i).state
  alive : ∀ i, Alive k i → Alive k' i

variable {k k' : Kernel}

namespace Calm

theorem refl (k : Kernel) : Calm k k := ⟨fun _ => rfl, fun _ _ => rfl, fun _ _ => rfl, fun _ h => h⟩

theorem not_alive (h : Calm k k') {i : Slot} (hi : ¬ Alive k i) : ¬ Alive k' i := by
  simpa [Alive, h.dead i hi] using hi

theorem trans {a b c : Kernel} (h₁ : Calm a b) (h₂ : Calm b c) : Calm a c where
  pid i := (h₂.pid i).trans (h₁.pid i)
  waitingFor i hi := (h₂.waitingFor i (h₁.not_alive hi)).trans (h₁.waitingFor i hi)
  dead i hi := (h₂.dead i (h₁.not_alive hi)).trans (h₁.dead i hi)
  alive i hi := h₂.alive i (h₁.alive i hi)

theorem aliveAt (h : Calm k k') {pid : UInt32} (ha : AliveAt k pid) :
    AliveAt k' pid := fun i hi =>
  h.alive i (ha i (by rwa [procFindIndex_congr h.pid] at hi))

/-- A change of one alive slot that keeps its PID and leaves it alive. -/
theorem modify {i : Slot} {f : Pcb → Pcb} (hpid : ∀ p, (f p).pid = p.pid)
    (hi : Alive k i) (hf : (f (k.procTable i)).state ≠ .unused ∧ (f (k.procTable i)).state ≠ .zombie) :
    Calm k (k.modify i f) where
  pid j := by
    rw [Kernel.modify_apply]; split
    · next h => rw [hpid, h]
    · rfl
  waitingFor j hj := by
    have hne : j ≠ i := fun e => hj (e ▸ hi)
    rw [Kernel.modify_other _ _ hne]
  dead j hj := by
    have hne : j ≠ i := fun e => hj (e ▸ hi)
    rw [Kernel.modify_other _ _ hne]
  alive j hj := by
    unfold Alive
    rw [Kernel.modify_apply]; split
    · exact hf
    · exact hj

/-- A change of one slot that keeps its PID, its state and what it waits for. -/
theorem modify_rest {i : Slot} {f : Pcb → Pcb} (hpid : ∀ p, (f p).pid = p.pid)
    (hw : ∀ p, (f p).waitingFor = p.waitingFor) (hs : ∀ p, (f p).state = p.state) :
    Calm k (k.modify i f) := by
  have hpid' : ∀ j, ((k.modify i f).procTable j).pid = (k.procTable j).pid := fun j => by
    rw [Kernel.modify_apply]; split
    · next h => rw [hpid, h]
    · rfl
  have hs' : ∀ j, ((k.modify i f).procTable j).state = (k.procTable j).state := fun j => by
    rw [Kernel.modify_apply]; split
    · next h => rw [hs, h]
    · rfl
  refine ⟨hpid', fun j _ => ?_, fun j _ => hs' j, fun j hj => by simpa [Alive, hs'] using hj⟩
  rw [Kernel.modify_apply]; split
  · next h => rw [hw, h]
  · rfl

/-- Changing anything but the table. -/
theorem of_table (h : k'.procTable = k.procTable) : Calm k k' := by
  refine ⟨fun i => ?_, fun i _ => ?_, fun i _ => ?_, fun i hi => ?_⟩ <;> simp_all [Alive]

/-- An operation on a kernel that differs from `k` outside the table. -/
theorem after {k k₁ k' : Kernel} (h' : Calm k₁ k') (h : k₁.procTable = k.procTable) : Calm k k' :=
  (of_table h).trans h'

/-- An operation followed by a change outside the table. -/
theorem before {k k₁ k' : Kernel} (h : Calm k k₁) (h' : k'.procTable = k₁.procTable) : Calm k k' :=
  h.trans (of_table h')

end Calm

/-! ### Blocking, waking, scheduling -/

theorem calm_procBlock {pid : Int32} (h : AliveAt k pid.toUInt32) :
    Calm k (procBlock k pid) := by
  unfold procBlock
  split
  · exact .refl k
  · next i hi => exact .modify (fun _ => rfl) (h i hi) (by simp [Pcb.setState])

theorem calm_procUnblock {pid : Int32} (h : AliveAt k pid.toUInt32) :
    Calm k (procUnblock k pid) := by
  unfold procUnblock
  split
  · exact .refl k
  · next i hi => exact .modify (fun _ => rfl) (h i hi) (by simp [Pcb.setState])

theorem calm_dispatch {next : Slot} (h : (k.procTable next).state = .ready) :
    Calm k (dispatch k next) := by
  have hm : Calm { k with currentProc := some next }
      ({ k with currentProc := some next }.modify next fun p => p.setState .running) :=
    .modify (fun _ => rfl) (by simp [Alive, h]) (by simp [Pcb.setState])
  exact (hm.after (k := k) rfl).before rfl

/-- Saving the interrupted frame: a RUNNING slot becomes READY, no other state changes. -/
theorem calm_preempt {old : Slot} {frame : Registers} :
    Calm k (k.modify old fun p => p.preempt frame) := by
  by_cases h : (k.procTable old).state = .running
  · exact .modify (fun _ => rfl) (by simp [Alive, h]) (by simp [Pcb.preempt, h])
  · have hf : (k.modify old fun p => p.preempt frame) =
        k.modify old fun p => { p with context := frame } := by
      simp [Kernel.modify, Pcb.preempt, h]
    rw [hf]
    exact .modify_rest (fun _ => rfl) (fun _ => rfl) (fun _ => rfl)

theorem Calm.dispatchNext {k k₁ : Kernel} (h : Calm k k₁) :
    Calm k (match findNext k₁ with
      | none => k₁
      | some next => dispatch k₁ next) := by
  split
  · exact h
  · next n hn => exact h.trans (calm_dispatch (findNext_ready hn))

theorem calm_procScheduleInterrupt (k : Kernel) (frame : Registers) :
    Calm k (procScheduleInterrupt k frame) := by
  unfold procScheduleInterrupt
  split
  · refine Calm.dispatchNext ?_
    split
    · exact .refl k
    · split
      · exact .refl k
      · exact calm_preempt
  · exact .refl k

theorem calm_procYield (k : Kernel) (point : KernelPoint) (frame : Registers) :
    Calm k (procYield k point frame) := by
  unfold procYield
  simp only
  split
  · exact (calm_procScheduleInterrupt { k with point := point } frame).after rfl
  · exact .of_table rfl

theorem calm_procStartScheduling (k : Kernel) : Calm k (procStartScheduling k) := by
  unfold procStartScheduling
  simp only
  split
  · next i hi =>
      have hr := List.find?_some hi
      simp only [Bool.and_eq_true, beq_iff_eq] at hr
      have hd : Calm { k with schedulingEnabled := true } _ := calm_dispatch hr.1
      exact hd.after rfl
  · split
    · next i hi =>
        have hr := List.find?_some hi
        simp only [beq_iff_eq] at hr
        have hm : Calm { k with schedulingEnabled := true, currentProc := some i } _ :=
          .modify (i := i) (f := fun p => p.setState .running) (fun _ => rfl)
            (by simp [Alive, hr]) (by simp [Pcb.setState])
        exact hm.after rfl
    · exact .of_table rfl

end Blackmount.Proc
