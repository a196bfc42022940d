import Blackmount.Proc.Signals
import Blackmount.Proc.Spaces

/-!
# Proc — what the operations do to each slot

One lemma for each way the process table changes: waking and blocking (`procUnblockAll_procTable`,
`procBlock?_procTable`), scheduling (`procScheduleInterrupt_eq`, `dispatch_procTable`), termination
(`Fate`) and creation (`Created`).  The invariants of the following modules are proved from these.
-/

namespace Blackmount.Proc
open Blackmount.Net Blackmount.Console Blackmount.Lib

/-! ### Waking and blocking -/

/-- Slot `j` is the one some PID of the list names. -/
def NamedBy (k : Kernel) (pids : List Int32) (j : Slot) : Prop :=
  ∃ pid ∈ pids, procFindIndex k pid.toUInt32 = some j

instance (k : Kernel) (pids : List Int32) (j : Slot) : Decidable (NamedBy k pids j) := by
  delta NamedBy; infer_instance

variable {k k' : Kernel}

theorem namedBy_congr (h : ∀ i, (k'.procTable i).pid = (k.procTable i).pid)
    (pids : List Int32) (j : Slot) : NamedBy k' pids j ↔ NamedBy k pids j := by
  simp only [NamedBy, procFindIndex_congr h]

theorem namedBy_append {l l' : List Int32} {i : Slot} :
    NamedBy k (l ++ l') i ↔ NamedBy k l i ∨ NamedBy k l' i := by
  simp only [NamedBy, List.mem_append, or_and_right, exists_or]

theorem procUnblock_procTable (k : Kernel) (pid : Int32) (j : Slot) :
    (procUnblock k pid).procTable j =
      if procFindIndex k pid.toUInt32 = some j then (k.procTable j).setState .ready
      else k.procTable j := by
  simp only [procUnblock]
  cases h : procFindIndex k pid.toUInt32 with
  | none => simp
  | some i =>
      simp only [Kernel.modify_apply, Option.some.injEq]
      by_cases hj : j = i
      · subst hj; simp
      · rw [if_neg hj, if_neg fun e => hj e.symm]

theorem procBlock_procTable (k : Kernel) (pid : Int32) (j : Slot) :
    (procBlock k pid).procTable j =
      if procFindIndex k pid.toUInt32 = some j then (k.procTable j).setState .blocked
      else k.procTable j := by
  simp only [procBlock]
  cases h : procFindIndex k pid.toUInt32 with
  | none => simp
  | some i =>
      simp only [Kernel.modify_apply, Option.some.injEq]
      by_cases hj : j = i
      · subst hj; simp
      · rw [if_neg hj, if_neg fun e => hj e.symm]

theorem procUnblock_pid (k : Kernel) (pid : Int32) (j : Slot) :
    ((procUnblock k pid).procTable j).pid = (k.procTable j).pid := by
  rw [procUnblock_procTable]
  split <;> rfl

theorem procUnblockAll_pid (k : Kernel) (pids : List Int32) (j : Slot) :
    ((procUnblockAll k pids).procTable j).pid = (k.procTable j).pid := by
  induction pids generalizing k with
  | nil => rfl
  | cons pid pids ih => exact (ih (procUnblock k pid)).trans (procUnblock_pid k pid j)

theorem procUnblockAll_procTable (k : Kernel) (pids : List Int32) (j : Slot) :
    (procUnblockAll k pids).procTable j =
      if NamedBy k pids j then (k.procTable j).setState .ready else k.procTable j := by
  induction pids generalizing k with
  | nil => simp [NamedBy, procUnblockAll]
  | cons pid pids ih =>
      have hrec := ih (procUnblock k pid)
      simp only [namedBy_congr (procUnblock_pid k pid), procUnblock_procTable] at hrec
      have hcons : NamedBy k (pid :: pids) j ↔
          procFindIndex k pid.toUInt32 = some j ∨ NamedBy k pids j := by
        simp [NamedBy]
      refine hrec.trans ?_
      by_cases h₁ : NamedBy k pids j <;> by_cases h₂ : procFindIndex k pid.toUInt32 = some j
      · rw [if_pos h₁, if_pos h₂, if_pos (hcons.mpr (.inl h₂))]; rfl
      · rw [if_pos h₁, if_neg h₂, if_pos (hcons.mpr (.inr h₁))]
      · rw [if_neg h₁, if_pos h₂, if_pos (hcons.mpr (.inl h₂))]
      · rw [if_neg h₁, if_neg h₂, if_neg fun h => (hcons.mp h).elim h₂ h₁]

/-- The fields of the kernel outside the table that waking and blocking leave alone. -/
structure SameControl (k k' : Kernel) : Prop where
  current : k'.currentProc = k.currentProc
  enabled : k'.schedulingEnabled = k.schedulingEnabled
  nextPid : k'.nextPid = k.nextPid
  point : k'.point = k.point

namespace SameControl

theorem refl (k : Kernel) : SameControl k k := ⟨rfl, rfl, rfl, rfl⟩

theorem trans {a b c : Kernel} (h₁ : SameControl a b) (h₂ : SameControl b c) : SameControl a c :=
  ⟨h₂.current.trans h₁.current, h₂.enabled.trans h₁.enabled, h₂.nextPid.trans h₁.nextPid,
    h₂.point.trans h₁.point⟩

end SameControl

theorem sameControl_procUnblock (k : Kernel) (pid : Int32) : SameControl k (procUnblock k pid) := by
  simp only [procUnblock]
  split <;> exact ⟨rfl, rfl, rfl, rfl⟩

theorem sameControl_procUnblockAll (k : Kernel) (pids : List Int32) :
    SameControl k (procUnblockAll k pids) := by
  induction pids generalizing k with
  | nil => exact .refl k
  | cons pid pids ih => exact (sameControl_procUnblock k pid).trans (ih (procUnblock k pid))

theorem sameControl_procBlock? (k : Kernel) (pid : Option Int32) :
    SameControl k (procBlock? k pid) := by
  cases pid with
  | none => exact .refl k
  | some pid =>
      simp only [procBlock?, procBlock]
      split <;> exact ⟨rfl, rfl, rfl, rfl⟩

theorem procBlock?_procTable (k : Kernel) (pid : Option Int32) (j : Slot) :
    (procBlock? k pid).procTable j =
      if NamedBy k pid.toList j then (k.procTable j).setState .blocked else k.procTable j := by
  cases pid with
  | none => simp [procBlock?, NamedBy]
  | some pid => simp [procBlock?, NamedBy, procBlock_procTable]

/-- The slots once the wake-ups and the block of `σ` are done, before its yield. -/
def Signals.touch (σ : Signals) (k : Kernel) : Kernel :=
  procBlock? (procUnblockAll k σ.wakes) σ.blocks

theorem Signals.touch_procTable (σ : Signals) (k : Kernel) (j : Slot) :
    (σ.touch k).procTable j =
      if NamedBy k σ.blocks.toList j then (k.procTable j).setState .blocked
      else if NamedBy k σ.wakes j then (k.procTable j).setState .ready
      else k.procTable j := by
  rw [Signals.touch, procBlock?_procTable, procUnblockAll_procTable,
    if_congr (namedBy_congr (procUnblockAll_pid k σ.wakes) _ _) rfl rfl]
  split_ifs <;> rfl

theorem Signals.sameControl_touch (σ : Signals) (k : Kernel) : SameControl k (σ.touch k) :=
  (sameControl_procUnblockAll k σ.wakes).trans (sameControl_procBlock? _ _)

/-! ### Scheduling -/

/-- `proc_schedule_interrupt` up to `find_next`: the interrupted frame is saved. -/
def saved (k : Kernel) (frame : Registers) : Kernel :=
  match k.currentProc with
  | none => k
  | some old =>
      if (k.procTable old).state = .unused then k
      else k.modify old fun p => p.preempt { frame with point := k.point }

theorem saved_procTable (k : Kernel) (frame : Registers) (j : Slot) :
    (saved k frame).procTable j =
      if k.currentProc = some j ∧ (k.procTable j).state ≠ .unused then
        (k.procTable j).preempt { frame with point := k.point }
      else k.procTable j := by
  simp only [saved]
  cases k.currentProc with
  | none => simp
  | some old =>
      by_cases hj : j = old
      · subst hj
        by_cases hu : (k.procTable j).state = .unused
        · simp [hu]
        · simp [hu]
      · have hne : ¬ some old = some j := fun e => hj (Option.some.inj e).symm
        simp only [hne, false_and, if_false]
        split
        · rfl
        · rw [Kernel.modify_other _ _ hj]

theorem sameControl_saved (k : Kernel) (frame : Registers) : SameControl k (saved k frame) := by
  simp only [saved]
  split
  · exact .refl k
  · split <;> exact ⟨rfl, rfl, rfl, rfl⟩

theorem procScheduleInterrupt_eq (k : Kernel) (frame : Registers) :
    procScheduleInterrupt k frame =
      if k.schedulingEnabled then
        match findNext (saved k frame) with
        | none => saved k frame
        | some next => dispatch (saved k frame) next
      else k := rfl

theorem dispatch_procTable (k : Kernel) (next j : Slot) :
    (dispatch k next).procTable j =
      if j = next then (k.procTable j).setState .running else k.procTable j := by
  simp only [dispatch, vmmSwitchSpace, Kernel.modify_apply]
  split
  · next h => subst h; rfl
  · rfl

theorem dispatch_point (k : Kernel) (next : Slot) :
    (dispatch k next).point = (k.procTable next).context.point := by
  simp [dispatch, vmmSwitchSpace, Pcb.setState]

/-- `find_next` finds a READY slot when there is one. -/
theorem findNext_isSome {j : Slot} (h : (k.procTable j).state = .ready) :
    ∃ n, findNext k = some n := by
  have hreach : ∃ i < maxProcesses, slotAfter k.currentProc i = j := by
    have hj : j.val < 64 := j.isLt
    cases k.currentProc with
    | none =>
        refine ⟨j.val, hj, Fin.ext ?_⟩
        simp only [slotAfter, maxProcesses]
        omega
    | some c =>
        have hc : c.val < 64 := c.isLt
        refine ⟨(j.val + 64 - (c.val + 1)) % 64, Nat.mod_lt _ (by decide), Fin.ext ?_⟩
        simp only [slotAfter, maxProcesses]
        omega
  obtain ⟨i, hi, hij⟩ := hreach
  refine Option.ne_none_iff_exists'.mp fun hnone => ?_
  have := List.findSome?_eq_none_iff.mp hnone i (List.mem_range.mpr hi)
  simp [hij, h] at this

/-! ### Termination -/

/-- `proc_kill_children` erases slots below `pid` and changes no other. -/
theorem eroded_procKillChildren : ∀ {fuel : Nat} {k k' : Kernel} {pid : UInt32},
    procKillChildren fuel k pid = some k' → Eroded k pid k'
  | 0, _, _, _, h => by cases h
  | fuel + 1, k, k', pid, h => by
      refine foldlM_rel (R := fun s s' => Eroded k pid s → Eroded k pid s') (fun _ h => h)
        (fun h₁ h₂ h => h₂ (h₁ h)) (fun s i s' hb he => ?_) h (.refl k pid)
      simp only at hb
      split at hb
      · cases hb; exact he
      · next hd =>
          split at hb
          · cases hb; exact he
          · next hp =>
              obtain ⟨s₂, h₂, rfl⟩ := Option.map_eq_some_iff.mp hb
              have hi : Alive s i := not_or.mp hd
              have hsame := he.of_alive hi
              have hik : Descends k pid i :=
                .child (by simpa [Alive, hsame] using hi) (by rw [← hsame]; exact not_not.mp hp)
              exact he.release hik (eroded_procKillChildren h₂) hsame

theorem sameControl_pcbRelease (k : Kernel) (i : Slot) : SameControl k (pcbRelease k i) := by
  simp only [pcbRelease]
  split <;> exact ⟨rfl, rfl, rfl, rfl⟩

theorem sameControl_procKillChildren : ∀ {fuel : Nat} {k k' : Kernel} {pid : UInt32},
    procKillChildren fuel k pid = some k' → SameControl k k'
  | 0, _, _, _, h => by cases h
  | fuel + 1, k, k', pid, h => by
      refine foldlM_rel SameControl.refl SameControl.trans (fun s i s' hb => ?_) h
      simp only at hb
      split at hb
      · cases hb; exact .refl s
      · split at hb
        · cases hb; exact .refl s
        · obtain ⟨s₂, h₂, rfl⟩ := Option.map_eq_some_iff.mp hb
          exact (sameControl_procKillChildren h₂).trans (sameControl_pcbRelease s₂ i)

/-- The fields by which a process is known and resumed. -/
structure SameRecord (p p' : Pcb) : Prop where
  pid : p'.pid = p.pid
  ppid : p'.ppid = p.ppid
  exitCode : p'.exitCode = p.exitCode
  point : p'.context.point = p.context.point

theorem SameRecord.refl (p : Pcb) : SameRecord p p := ⟨rfl, rfl, rfl, rfl⟩

theorem SameRecord.trans {p q r : Pcb} (h₁ : SameRecord p q) (h₂ : SameRecord q r) :
    SameRecord p r :=
  ⟨h₂.pid.trans h₁.pid, h₂.ppid.trans h₁.ppid, h₂.exitCode.trans h₁.exitCode,
    h₂.point.trans h₁.point⟩

/-- Slot `i` has died, slot `j` is as it was. -/
def deathbed (k : Kernel) (i : Slot) (code : UInt32) (j : Slot) : Pcb :=
  if j = i then (k.procTable j).die code else k.procTable j

/-- Why the termination of slot `i` wakes slot `j`, which was `p`: it is BLOCKED and the vfork
parent, or it is the parent and waits for the process that died. -/
def Roused.Why (k : Kernel) (i : Slot) (p : Pcb) : Prop :=
  p.state = .blocked ∧ (k.procTable i).vforkParent > 0 ∧
      p.pid = (k.procTable i).vforkParent.toUInt32 ∨
    p.waitingFor = (k.procTable i).pid ∧ p.pid = (k.procTable i).ppid

/-- What `proc_terminate` of slot `i` makes of slot `j`.  When the process that dies has PID 0, an
erased slot passes for its waiting parent. -/
inductive Fate (k : Kernel) (i : Slot) (code : UInt32) (j : Slot) (p' : Pcb) : Prop
  | erased (hne : j ≠ i) (hd : Descends k (k.procTable i).pid j)
      (hid : SameRecord (k.procTable j).clearHead p') (hst : p'.state = .unused)
      (hw : p'.waitingFor = 0)
  | reborn (hne : j ≠ i) (hd : Descends k (k.procTable i).pid j) (h0 : (k.procTable i).pid = 0)
      (hid : SameRecord (k.procTable j).clearHead p') (hst : p'.state = .ready)
  | kept (hid : SameRecord (deathbed k i code j) p') (hst : p'.state = (deathbed k i code j).state)
      (hw : p'.waitingFor = (deathbed k i code j).waitingFor)
  | woken (hid : SameRecord (deathbed k i code j) p') (hst : p'.state = .ready)
      (hw : p'.waitingFor = 0xFFFFFFFF) (hwhy : Roused.Why k i (deathbed k i code j))

theorem procFindIndex_eq_some {pid : UInt32} {i : Slot} :
    procFindIndex k pid = some i ↔
      (k.procTable i).pid = pid ∧ ∀ j, j < i → (k.procTable j).pid ≠ pid := by
  rw [procFindIndex, List.find?_eq_some_iff_getElem]
  simp only [beq_iff_eq, List.getElem_finRange, List.length_finRange, Bool.not_eq_true',
    beq_eq_false_iff_ne]
  constructor
  · rintro ⟨hi, n, hn, rfl, hlt⟩
    exact ⟨hi, fun j hj => hlt j.val hj⟩
  · rintro ⟨hi, hlt⟩
    exact ⟨hi, i.val, i.isLt, rfl, fun j hj => hlt ⟨j, _⟩ hj⟩

/-- Slots that lose their PID do not hide the slot of a PID that is not 0. -/
theorem procFindIndex_survives {pid : UInt32} {i : Slot} (hpid : pid ≠ 0)
    (h : procFindIndex k pid = some i) (hi : (k'.procTable i).pid = (k.procTable i).pid)
    (hother : ∀ j, (k'.procTable j).pid = (k.procTable j).pid ∨ (k'.procTable j).pid = 0) :
    procFindIndex k' pid = some i := by
  rw [procFindIndex_eq_some] at h ⊢
  refine ⟨hi.trans h.1, fun j hj => ?_⟩
  rcases hother j with e | e
  · rw [e]; exact h.2 j hj
  · rw [e]; exact fun h0 => hpid h0.symm

/-- Wakes a slot, which then waits for nothing. -/
def Pcb.rouse (p : Pcb) : Pcb := (p.setWaitingFor 0xFFFFFFFF).setState .ready

/-- Slot `j` is the vfork parent of slot `i`, as `proc_terminate` looks it up. -/
def IsVforkParent (k : Kernel) (i j : Slot) : Prop :=
  (k.procTable i).vforkParent > 0 ∧
    procFindIndex k (k.procTable i).vforkParent.toUInt32 = some j

instance (k : Kernel) (i j : Slot) : Decidable (IsVforkParent k i j) := by
  delta IsVforkParent; infer_instance

theorem wakeBlocked_procTable (k : Kernel) (v j : Slot) :
    (wakeBlocked k v).procTable j =
      if j = v ∧ (k.procTable j).state = .blocked then (k.procTable j).rouse else k.procTable j := by
  simp only [wakeBlocked]
  by_cases hj : j = v
  · subst hj
    split
    · next hb => simp [hb, Pcb.rouse]
    · next hb => simp [hb]
  · split
    · simp [hj, Kernel.modify_other _ _ hj]
    · simp [hj]

/-- The vfork parent is woken when it is BLOCKED; the dying slot itself only gives its space
back. -/
theorem wakeVforkParent_procTable (k : Kernel) (i j : Slot) :
    ∃ q, q = (if IsVforkParent k i j ∧ (k.procTable j).state = .blocked then
        (k.procTable j).rouse else k.procTable j) ∧
      ((wakeVforkParent k i).procTable j = q ∨
        (wakeVforkParent k i).procTable j = q.leaveVfork) := by
  refine ⟨_, rfl, ?_⟩
  simp only [wakeVforkParent]
  by_cases hv : (k.procTable i).vforkParent > 0
  · rw [if_pos hv]
    have hleave : ∀ k₁ : Kernel, (k₁.modify i Pcb.leaveVfork).procTable j = k₁.procTable j ∨
        (k₁.modify i Pcb.leaveVfork).procTable j = (k₁.procTable j).leaveVfork := by
      intro k₁
      rw [Kernel.modify_apply]
      split
      · next h => rw [h]; exact .inr rfl
      · exact .inl rfl
    cases hf : procFindIndex k (k.procTable i).vforkParent.toUInt32 with
    | none => simpa [IsVforkParent, hf] using hleave k
    | some v =>
        have hwake := hleave (wakeBlocked k v)
        rw [wakeBlocked_procTable] at hwake
        simpa [IsVforkParent, hf, hv, eq_comm] using hwake
  · rw [if_neg hv]
    simp [IsVforkParent, hv]

theorem wakeWaitingParent_procTable (k : Kernel) (i j : Slot) (pid : UInt32) :
    (wakeWaitingParent k i pid).procTable j =
      if procFindIndex k (k.procTable i).ppid = some j ∧ (k.procTable j).waitingFor = pid then
        (k.procTable j).rouse
      else k.procTable j := by
  simp only [wakeWaitingParent]
  cases hq : procFindIndex k (k.procTable i).ppid with
  | none => simp
  | some q =>
      simp only [Option.some.injEq]
      by_cases hw : (k.procTable q).waitingFor = pid
      · rw [if_pos hw]
        have hsame : ∀ n, ((k.modify q fun p => p.setWaitingFor 0xFFFFFFFF).procTable n).pid =
            (k.procTable n).pid := by
          intro n
          rw [Kernel.modify_apply]
          split
          · next h => rw [h]; rfl
          · rfl
        -- `proc_unblock` finds the slot of the parent again: no PID has changed
        have hfind : procFindIndex (k.modify q fun p => p.setWaitingFor 0xFFFFFFFF)
            ((k.modify q fun p => p.setWaitingFor 0xFFFFFFFF).procTable q).pid.toInt32.toUInt32 =
              some q := by
          rw [procFindIndex_congr hsame, hsame q, procFindIndex_pid hq]
          simpa using hq
        rw [procUnblock_procTable, hfind]
        by_cases hj : q = j
        · subst hj
          simp [hw, Pcb.rouse]
        · have hj' : j ≠ q := fun e => hj e.symm
          simp [hj, Kernel.modify_other _ _ hj']
      · rw [if_neg hw]
        by_cases hj : q = j
        · subst hj; simp [hw]
        · simp [hj]

theorem sameControl_wakeVforkParent (k : Kernel) (i : Slot) :
    SameControl k (wakeVforkParent k i) := by
  simp only [wakeVforkParent]
  split
  · split
    · exact ⟨rfl, rfl, rfl, rfl⟩
    · simp only [wakeBlocked]
      split <;> exact ⟨rfl, rfl, rfl, rfl⟩
  · exact .refl k

theorem sameControl_wakeWaitingParent (k : Kernel) (i : Slot) (pid : UInt32) :
    SameControl k (wakeWaitingParent k i pid) := by
  simp only [wakeWaitingParent]
  split
  · exact .refl k
  · split
    · next q _ _ =>
        have hm : SameControl k (k.modify q fun p => p.setWaitingFor 0xFFFFFFFF) :=
          ⟨rfl, rfl, rfl, rfl⟩
        exact hm.trans (sameControl_procUnblock _ _)
    · exact .refl k

/-- The stages of `proc_terminate`: the slot dies, what is below it is erased, and the parents are
woken. -/
theorem procTerminate_stages {i : Slot} {code : UInt64}
    (h : procTerminate k i code = some k') :
    ∃ k₂, SameControl k k₂ ∧
      (∀ j, k₂.procTable j = deathbed k i code.toUInt32 j ∨
        j ≠ i ∧ Descends k (k.procTable i).pid j ∧ k₂.procTable j = (k.procTable j).clearHead) ∧
      k' = wakeWaitingParent (wakeVforkParent k₂ i) i (k.procTable i).pid := by
  simp only [procTerminate] at h
  obtain ⟨k₂, h₂, rfl⟩ := Option.map_eq_some_iff.mp h
  set k₁ := k.modify i fun p => p.die code.toUInt32 with hk₁
  have hbed : ∀ j, k₁.procTable j = deathbed k i code.toUInt32 j := by
    intro j
    rw [hk₁, Kernel.modify_apply, deathbed]
    split
    · next e => rw [e]
    · rfl
  have hnot : ¬ Alive k₁ i := fun ha => ha.2 (by rw [hbed, deathbed, if_pos rfl]; rfl)
  have hsame : ∀ j, j ≠ i → k₁.procTable j = k.procTable j := fun j hj => by
    rw [hbed, deathbed, if_neg hj]
  have hc₁ : SameControl k k₁ := ⟨rfl, rfl, rfl, rfl⟩
  refine ⟨k₂, hc₁.trans (sameControl_procKillChildren h₂), fun j => ?_, rfl⟩
  rcases (eroded_procKillChildren h₂).slot j with e | ⟨hd, e⟩
  · exact .inl (e.trans (hbed j))
  · have hji : j ≠ i := fun e => hnot (e ▸ hd.alive)
    refine .inr ⟨hji, hd.mono fun m hm => ?_, by rw [e, hsame j hji]⟩
    have hmi : m ≠ i := fun e => hnot (e ▸ hm)
    rw [Alive, hsame m hmi] at hm
    exact ⟨hm, by rw [hsame m hmi], by rw [hsame m hmi]⟩

theorem sameControl_procTerminate {i : Slot} {code : UInt64}
    (h : procTerminate k i code = some k') : SameControl k k' := by
  obtain ⟨k₂, hc, -, rfl⟩ := procTerminate_stages h
  exact (hc.trans (sameControl_wakeVforkParent k₂ i)).trans (sameControl_wakeWaitingParent _ _ _)

theorem sameRecord_rouse (p : Pcb) : SameRecord p p.rouse := ⟨rfl, rfl, rfl, rfl⟩

theorem sameRecord_wakeVforkParent (k : Kernel) (i j : Slot) :
    SameRecord (k.procTable j) ((wakeVforkParent k i).procTable j) := by
  obtain ⟨q, rfl, hq⟩ := wakeVforkParent_procTable k i j
  rcases hq with e | e <;> rw [e] <;> split <;> exact ⟨rfl, rfl, rfl, rfl⟩

/-- Slot `j` after the two wake-ups of `proc_terminate`. -/
theorem wakes_procTable (k : Kernel) (i j : Slot) (pid : UInt32) :
    ∃ p', p' = (wakeWaitingParent (wakeVforkParent k i) i pid).procTable j ∧
      SameRecord (k.procTable j) p' ∧
      (p'.state = (k.procTable j).state ∧ p'.waitingFor = (k.procTable j).waitingFor ∨
        p'.state = .ready ∧ p'.waitingFor = 0xFFFFFFFF ∧
          (IsVforkParent k i j ∧ (k.procTable j).state = .blocked ∨
            (k.procTable j).pid = (k.procTable i).ppid ∧ (k.procTable j).waitingFor = pid)) := by
  have hrec := sameRecord_wakeVforkParent k i
  obtain ⟨q, hq, hj⟩ := wakeVforkParent_procTable k i j
  have hst : ((wakeVforkParent k i).procTable j).state = q.state ∧
      ((wakeVforkParent k i).procTable j).waitingFor = q.waitingFor := by
    rcases hj with e | e <;> rw [e] <;> exact ⟨rfl, rfl⟩
  refine ⟨_, rfl, ?_⟩
  rw [wakeWaitingParent_procTable]
  by_cases hw : procFindIndex (wakeVforkParent k i) ((wakeVforkParent k i).procTable i).ppid = some j ∧
      ((wakeVforkParent k i).procTable j).waitingFor = pid
  · rw [if_pos hw]
    refine ⟨(hrec j).trans (sameRecord_rouse _), .inr ⟨rfl, rfl, ?_⟩⟩
    by_cases hv : IsVforkParent k i j ∧ (k.procTable j).state = .blocked
    · exact .inl hv
    · rw [if_neg hv] at hq
      have hpid := procFindIndex_pid hw.1
      rw [(hrec j).pid, (hrec i).ppid] at hpid
      exact .inr ⟨hpid, by rw [← hw.2, hst.2, hq]⟩
  · rw [if_neg hw]
    refine ⟨hrec j, ?_⟩
    rw [hst.1, hst.2, hq]
    split
    · next hv => exact .inr ⟨rfl, rfl, .inl hv⟩
    · exact .inl ⟨rfl, rfl⟩

theorem fate_procTerminate {i : Slot} {code : UInt64}
    (h : procTerminate k i code = some k') (j : Slot) :
    Fate k i code.toUInt32 j (k'.procTable j) := by
  obtain ⟨k₂, -, hslot, rfl⟩ := procTerminate_stages h
  have hi : k₂.procTable i = (k.procTable i).die code.toUInt32 := by
    rcases hslot i with e | ⟨hne, -⟩
    · rw [e, deathbed, if_pos rfl]
    · exact absurd rfl hne
  obtain ⟨p', hp', hrec, hcase⟩ := wakes_procTable k₂ i j (k.procTable i).pid
  rw [← hp']
  rcases hslot j with e | ⟨hne, hd, e⟩
  · rw [e] at hrec hcase
    rcases hcase with ⟨hst, hw⟩ | ⟨hst, hw, hwhy⟩
    · exact .kept hrec hst hw
    · refine .woken hrec hst hw ?_
      rcases hwhy with ⟨⟨hpos, hfind⟩, hb⟩ | ⟨hpid, hwait⟩
      · have hpid := procFindIndex_pid hfind
        rw [hi] at hpos hpid
        rw [e] at hpid
        exact .inl ⟨hb, hpos, hpid⟩
      · rw [hi] at hpid
        exact .inr ⟨hwait, hpid⟩
  · rw [e] at hrec hcase
    rcases hcase with ⟨hst, hw⟩ | ⟨hst, hw, hwhy⟩
    · exact .erased hne hd hrec hst hw
    · rcases hwhy with ⟨-, hb⟩ | ⟨hpid, hwait⟩
      · cases hb
      · exact .reborn hne hd hwait.symm hrec hst

/-- Slot `v` is one that `proc_terminate` of slot `i` wakes: the BLOCKED vfork parent, or the parent
that waits for the process. -/
def WokenBy (k : Kernel) (i v : Slot) : Prop :=
  IsVforkParent k i v ∧ (k.procTable v).state = .blocked ∨
    (k.procTable i).ppid ≠ 0 ∧ procFindIndex k (k.procTable i).ppid = some v ∧
      (k.procTable v).waitingFor = (k.procTable i).pid

instance (k : Kernel) (i v : Slot) : Decidable (WokenBy k i v) := by
  delta WokenBy; infer_instance

theorem vforkParent_ne_zero {v : Int32} (h : v > 0) : v.toUInt32 ≠ 0 := by
  intro e
  have hv : v = 0 := by rw [← Int32.toInt32_toUInt32 v, e]; rfl
  rw [hv] at h
  exact absurd h (by decide)

/-- Waking leaves none of these slots BLOCKED. -/
theorem procTerminate_wakes {i v : Slot} {code : UInt64}
    (h : procTerminate k i code = some k') (hne : v ≠ i) (hv : WokenBy k i v) :
    (k'.procTable v).state ≠ .blocked := by
  obtain ⟨k₂, -, hslot, rfl⟩ := procTerminate_stages h
  have hi : k₂.procTable i = (k.procTable i).die code.toUInt32 := by
    rcases hslot i with e | ⟨hni, -⟩
    · rw [e, deathbed, if_pos rfl]
    · exact absurd rfl hni
  have hpids : ∀ j, (k₂.procTable j).pid = (k.procTable j).pid ∨ (k₂.procTable j).pid = 0 := by
    intro j
    rcases hslot j with e | ⟨-, -, e⟩
    · rw [e, deathbed]; split <;> exact .inl rfl
    · rw [e]; exact .inr rfl
  obtain ⟨p', hp', -, hcase⟩ := wakes_procTable k₂ i v (k.procTable i).pid
  rw [← hp']
  rcases hcase with ⟨hst, -⟩ | ⟨hst, -, -⟩
  swap
  · simp [hst]
  rcases hslot v with e | ⟨-, -, e⟩
  swap
  · rw [hst, e]; simp [Pcb.clearHead]
  rw [deathbed, if_neg hne] at e
  intro hblocked
  -- the state did not change, so the slot was not woken: but it was to be
  obtain ⟨q, hq, hk₃⟩ := wakeVforkParent_procTable k₂ i v
  rw [wakeWaitingParent_procTable] at hp'
  by_cases hvf : IsVforkParent k₂ i v ∧ (k₂.procTable v).state = .blocked
  · rw [if_pos hvf] at hq
    have hready : ((wakeVforkParent k₂ i).procTable v).state = .ready := by
      rcases hk₃ with e | e <;> rw [e, hq] <;> rfl
    rw [hp'] at hblocked
    split at hblocked
    · cases hblocked
    · rw [hready] at hblocked; cases hblocked
  rcases hv with ⟨⟨hpos, hfind⟩, hb⟩ | ⟨h0, hfind, hw⟩
  · refine hvf ⟨⟨by rw [hi]; exact hpos, ?_⟩, by rw [e]; exact hb⟩
    rw [hi]
    exact procFindIndex_survives (vforkParent_ne_zero hpos) hfind (by rw [e]) hpids
  · rw [if_neg hvf] at hq
    have hrec := sameRecord_wakeVforkParent k₂ i
    have hwait : ((wakeVforkParent k₂ i).procTable v).waitingFor = (k.procTable i).pid := by
      rcases hk₃ with e' | e' <;> rw [e', hq, e] <;> exact hw
    have hfind' : procFindIndex (wakeVforkParent k₂ i) ((wakeVforkParent k₂ i).procTable i).ppid =
        some v := by
      rw [procFindIndex_congr fun n => (hrec n).pid, (hrec i).ppid, hi]
      exact procFindIndex_survives h0 hfind (by rw [e]) hpids
    rw [if_pos ⟨hfind', hwait⟩] at hp'
    rw [hp'] at hblocked
    cases hblocked

/-! ### Creation -/

/-- All that the wait and wake-up code looks at. -/
structure SameState (p p' : Pcb) : Prop extends SameRecord p p' where
  state : p'.state = p.state
  waitingFor : p'.waitingFor = p.waitingFor

theorem SameState.refl (p : Pcb) : SameState p p := ⟨.refl p, rfl, rfl⟩

theorem SameState.trans {p q r : Pcb} (h₁ : SameState p q) (h₂ : SameState q r) : SameState p r :=
  ⟨h₁.toSameRecord.trans h₂.toSameRecord, h₂.state.trans h₁.state,
    h₂.waitingFor.trans h₁.waitingFor⟩

/-- A process that was just made. -/
structure Newborn (pid : UInt32) (p : Pcb) : Prop where
  pid : p.pid = pid
  state : p.state = .ready
  waitingFor : p.waitingFor = 0xFFFFFFFF
  point : p.context.point = .process

/-- Nothing is created, or a process is put into an unused slot. -/
inductive Created (k k' : Kernel) : Prop
  | nothing (hslot : ∀ j, SameState (k.procTable j) (k'.procTable j))
      (hpid : k'.nextPid = k.nextPid)
  | born {slot : Slot} (hu : (k.procTable slot).state = .unused)
      (hnew : Newborn k.nextPid (k'.procTable slot))
      (hslot : ∀ j, j ≠ slot → SameState (k.procTable j) (k'.procTable j))
      (hpid : k'.nextPid = k.nextPid + 1)

/-- What creation leaves alone. -/
structure CreatedBeside (k k' : Kernel) : Prop where
  created : Created k k'
  current : k'.currentProc = k.currentProc
  enabled : k'.schedulingEnabled = k.schedulingEnabled
  point : k'.point = k.point

namespace CreatedBeside

/-- A kernel that differs from `k` in nothing that matters here. -/
theorem same (ht : k'.procTable = k.procTable) (hp : k'.nextPid = k.nextPid)
    (hc : k'.currentProc = k.currentProc) (he : k'.schedulingEnabled = k.schedulingEnabled)
    (hpt : k'.point = k.point) : CreatedBeside k k' :=
  ⟨.nothing (fun j => by rw [ht]; exact .refl _) hp, hc, he, hpt⟩

theorem refl (k : Kernel) : CreatedBeside k k := .same rfl rfl rfl rfl rfl

/-- A change of other things before the creation. -/
theorem after {k k₁ k' : Kernel} (h : CreatedBeside k₁ k') (ht : k₁.procTable = k.procTable)
    (hp : k₁.nextPid = k.nextPid) (hc : k₁.currentProc = k.currentProc)
    (he : k₁.schedulingEnabled = k.schedulingEnabled) (hpt : k₁.point = k.point) :
    CreatedBeside k k' := by
  refine ⟨?_, h.current.trans hc, h.enabled.trans he, h.point.trans hpt⟩
  cases h.created with
  | nothing hs hn => exact .nothing (fun j => ht ▸ hs j) (hn.trans hp)
  | born hu hnew hs hn =>
      exact .born (ht ▸ hu) (hp ▸ hnew) (fun j hj => ht ▸ hs j hj) (by rw [hn, hp])

/-- A change after it that leaves every slot's state. -/
theorem before {k k₁ k' : Kernel} (h : CreatedBeside k k₁)
    (hs : ∀ j, SameState (k₁.procTable j) (k'.procTable j)) (hc : SameControl k₁ k') :
    CreatedBeside k k' := by
  refine ⟨?_, hc.current.trans h.current, hc.enabled.trans h.enabled, hc.point.trans h.point⟩
  cases h.created with
  | nothing hs₁ hn => exact .nothing (fun j => (hs₁ j).trans (hs j)) (hc.nextPid.trans hn)
  | @born slot hu hnew hs₁ hn =>
      refine .born hu ?_ (fun j hj => (hs₁ j hj).trans (hs j)) (hc.nextPid.trans hn)
      have hk := hs slot
      exact ⟨hk.pid.trans hnew.pid, hk.state.trans hnew.state, hk.waitingFor.trans hnew.waitingFor,
        hk.point.trans hnew.point⟩

end CreatedBeside

theorem newborn_newPcb (users : User.UserDb) (pid : UInt32) (a : CreateArgs) :
    Newborn pid (newPcb users pid a) := by
  simp only [newPcb]
  split <;> exact ⟨rfl, rfl, rfl, rfl⟩

theorem created_procCreateInternal (k : Kernel) (a : CreateArgs) :
    CreatedBeside k (procCreateInternal k a).1 := by
  simp only [procCreateInternal]
  split
  · exact .refl k
  · next slot hs =>
      refine ⟨.born (pcbAllocSlot_unused hs) ?_ (fun j hj => ?_) rfl, rfl, rfl, rfl⟩
      · simpa using newborn_newPcb k.users k.nextPid a
      · simp only [Kernel.modify_other _ _ hj]
        exact .refl _

theorem created_procCreateUserWith (k : Kernel) (owner : Int32) (entry endMarker : UInt64)
    (priority parent : UInt32) (m : MapAnswers) :
    CreatedBeside k (procCreateUserWith k owner entry endMarker priority parent m).1 := by
  simp only [procCreateUserWith]
  split
  · exact .refl k
  · split
    · exact .refl k
    · split
      · exact .refl k
      · split
        · split
          · exact .refl k
          · split
            · exact created_procCreateInternal k _
            · exact (created_procCreateInternal k _).before (fun _ => .refl _) ⟨rfl, rfl, rfl, rfl⟩
        · exact .refl k

/-- `vmm_create_address_space` changes the spaces alone. -/
theorem vmmCreateAddressSpace_eq {page : Option Nat} {a : Nat}
    (h : vmmCreateAddressSpace k page = some (a, k')) :
    k' = { k with spaces := Function.update k.spaces a true } := by
  simp only [vmmCreateAddressSpace] at h
  split at h
  · cases h
  · split at h <;> cases h
    rfl

theorem created_procCreateUserImageWith (k : Kernel) (owner : Int32) (a : ImageArgs)
    (m : MapAnswers) : CreatedBeside k (procCreateUserImageWith k owner a m).1 := by
  simp only [procCreateUserImageWith]
  split
  · split
    · exact .refl k
    · next space k₁ h₁ =>
        have hk₁ := vmmCreateAddressSpace_eq h₁
        have hafter : ∀ k', CreatedBeside k₁ k' → CreatedBeside k k' := fun k' h =>
          h.after (by rw [hk₁]) (by rw [hk₁]) (by rw [hk₁]) (by rw [hk₁]) (by rw [hk₁])
        split
        · split
          · exact hafter _ (.same rfl rfl rfl rfl rfl)
          · split
            · refine hafter _ ((created_procCreateInternal k₁ _).before (fun _ => .refl _) ?_)
              exact ⟨rfl, rfl, rfl, rfl⟩
            · exact hafter _ (created_procCreateInternal k₁ _)
        · exact hafter _ (.same rfl rfl rfl rfl rfl)
  · exact .refl k

theorem created_pcbInitChild {slot parent : Slot} {space : Option Nat}
    {frame : Registers} (h : pcbAllocSlot k = some slot) :
    CreatedBeside k (pcbInitChild k slot parent space frame) := by
  refine ⟨.born (pcbAllocSlot_unused h) ?_ (fun j hj => ?_) rfl, rfl, rfl, rfl⟩
  · simp only [pcbInitChild, Kernel.modify_same]
    exact ⟨rfl, rfl, rfl, rfl⟩
  · rw [pcbInitChild_other k slot parent space frame hj]
    exact .refl _

theorem created_procFork (k : Kernel) (frame : Registers) (page : Option Nat) (cloned : Bool) :
    CreatedBeside k (procFork k frame page cloned).1 := by
  simp only [procFork]
  split
  · exact .refl k
  · split
    · exact .refl k
    · next slot hs =>
        split
        · exact created_pcbInitChild hs
        · split
          · exact .refl k
          · next space k₁ h₁ =>
              have hk₁ := vmmCreateAddressSpace_eq h₁
              have hafter : ∀ k', CreatedBeside k₁ k' → CreatedBeside k k' := fun k' h =>
                h.after (by rw [hk₁]) (by rw [hk₁]) (by rw [hk₁]) (by rw [hk₁]) (by rw [hk₁])
              split
              · refine hafter _ (created_pcbInitChild ?_)
                rw [hk₁]
                exact hs
              · exact hafter _ (.same rfl rfl rfl rfl rfl)

/-- Setting a stack pointer changes nothing of a process's state. -/
theorem sameState_setRsp (p : Pcb) (rsp : UInt64) : SameState p (p.setRsp rsp) :=
  ⟨⟨rfl, rfl, rfl, rfl⟩, rfl, rfl⟩

theorem sameState_modify {i : Slot} {f : Pcb → Pcb} (hf : ∀ p, SameState p (f p))
    (j : Slot) : SameState (k.procTable j) ((k.modify i f).procTable j) := by
  rw [Kernel.modify_apply]
  split
  · next h => rw [h]; exact hf _
  · exact .refl _

theorem created_procCloneVm (k : Kernel) (frame : Registers) (childStack : UInt64) :
    CreatedBeside k (procCloneVm k frame childStack).1 := by
  simp only [procCloneVm]
  split
  · exact .refl k
  · split
    · exact .refl k
    · next slot hs =>
        refine (created_pcbInitChild hs).before (sameState_modify
          (f := fun p => if childStack ≠ 0 then p.setRsp childStack else p) fun p => ?_)
          ⟨rfl, rfl, rfl, rfl⟩
        split
        · exact sameState_setRsp p childStack
        · exact .refl p

theorem sameState_setChildStack (k : Kernel) (pid : Int32) (childStack : UInt64) (j : Slot) :
    SameState (k.procTable j) ((setChildStack k pid childStack).procTable j) := by
  simp only [setChildStack]
  split
  · split
    · exact .refl _
    · exact sameState_modify (fun p => sameState_setRsp p childStack) j
  · exact .refl _

theorem sameControl_setChildStack (k : Kernel) (pid : Int32) (childStack : UInt64) :
    SameControl k (setChildStack k pid childStack) := by
  simp only [setChildStack]
  split
  · split <;> exact ⟨rfl, rfl, rfl, rfl⟩
  · exact .refl k

/-- `proc_vfork` does nothing, or makes a child and then blocks its caller. -/
theorem procVfork_cases (k : Kernel) (frame : Registers) :
    (procVfork k frame).1 = k ∨
      ∃ parent slot k₁, k.currentProc = some parent ∧ pcbAllocSlot k = some slot ∧
        CreatedBeside k k₁ ∧ Newborn k.nextPid (k₁.procTable slot) ∧
        (∀ j, j ≠ slot → SameState (k.procTable j) (k₁.procTable j)) ∧
        (procVfork k frame).1 = k₁.modify parent fun p => p.awaitVfork k.nextPid frame := by
  simp only [procVfork]
  cases hc : k.currentProc with
  | none => exact .inl rfl
  | some parent =>
      cases hs : pcbAllocSlot k with
      | none => exact .inl rfl
      | some slot =>
          have hborn : CreatedBeside k
              (pcbInitChild k slot parent (k.procTable parent).addressSpace frame) :=
            created_pcbInitChild hs
          have hslot : Newborn k.nextPid
              ((pcbInitChild k slot parent (k.procTable parent).addressSpace frame).procTable slot) := by
            simp only [pcbInitChild, Kernel.modify_same]
            exact ⟨rfl, rfl, rfl, rfl⟩
          have hother : ∀ j, j ≠ slot → (pcbInitChild k slot parent (k.procTable parent).addressSpace
              frame).procTable j = k.procTable j := fun j hj => pcbInitChild_other k _ _ _ _ hj
          set k₁ := pcbInitChild k slot parent (k.procTable parent).addressSpace frame
          set k₂ := k₁.modify slot fun p => p.setVforkParent (k₁.procTable parent).pid.toInt32
          have hmark : ∀ j, SameState (k₁.procTable j) (k₂.procTable j) :=
            sameState_modify fun p => ⟨⟨rfl, rfl, rfl, rfl⟩, rfl, rfl⟩
          refine .inr ⟨parent, slot, k₂, rfl, rfl, hborn.before hmark ⟨rfl, rfl, rfl, rfl⟩, ?_,
            fun j hj => ?_, rfl⟩
          · have hm := hmark slot
            exact ⟨hm.pid.trans hslot.pid, hm.state.trans hslot.state,
              hm.waitingFor.trans hslot.waitingFor, hm.point.trans hslot.point⟩
          · rw [← hother j hj]
            exact hmark j

/-- The operations that make a vfork child. -/
def Op.vforks : Op → Bool
  | .vfork _ => true
  | .clone _ flags _ _ _ => flags &&& cloneVfork != 0
  | _ => false

/-- **Creation.**  Every operation that creates, but a vfork, puts one process into an unused slot
or none. -/
theorem created_perform {s s' : Sys} {o : Op} (ho : o.creates = true) (hv : o.vforks = false)
    (h : perform s o = some s') : CreatedBeside s.proc s'.proc := by
  cases o <;> cases ho <;> cases h
  case createKernel => exact created_procCreateInternal _ _
  case createKernelAs =>
      simp only [Sys.setProc_proc, procCreateKernelAs]
      split
      · exact created_procCreateInternal _ _
      · exact .refl _
  case createUser => exact created_procCreateUserWith _ _ _ _ _ _ _
  case createUserAs =>
      simp only [Sys.setProc_proc, procCreateUserAs]
      split
      · exact created_procCreateUserWith _ _ _ _ _ _ _
      · exact .refl _
  case createUserImage => exact created_procCreateUserImageWith _ _ _ _
  case createUserImageArgv => exact created_procCreateUserImageWith _ _ _ _
  case createUserImageAs =>
      simp only [Sys.setProc_proc, procCreateUserImageAs]
      split
      · exact created_procCreateUserImageWith _ _ _ _
      · exact .refl _
  case fork => exact created_procFork _ _ _ _
  case vfork => cases hv
  case clone frame flags childStack page cloned =>
      simp only [Op.vforks, bne_eq_false_iff_eq] at hv
      simp only [Sys.setProc_proc, procClone, hv, ne_eq, not_true_eq_false, if_false]
      split
      · exact created_procCloneVm _ _ _
      · exact (created_procFork _ _ _ _).before (sameState_setChildStack _ _ _)
          (sameControl_setChildStack _ _ _)

/-- What an operation leaves of the processes: it signals, it creates one, or it is one of those that end a process, wait
for one or schedule. -/
inductive Performed (s : Sys) : Op → Kernel → Prop where
  | signals {o : Op} (ho : o.onlyCalls = true) : Performed s o ((signals s o).apply s.proc)
  | creates {o : Op} {k' : Kernel} (ho : o.creates = true) (hv : o.vforks = false) (hc : CreatedBeside s.proc k') :
      Performed s o k'
  | vfork (frame : Registers) : Performed s (.vfork frame) (procVfork s.proc frame).1
  | cloneVfork {flags : UInt64} (frame : Registers) (childStack : UInt64) (page : Option Nat) (cloned : Bool)
      (hv : flags &&& cloneVfork ≠ 0) :
      Performed s (.clone frame flags childStack page cloned)
        (setChildStack (procVfork s.proc frame).1 (procVfork s.proc frame).2 childStack)
  | exit {code : UInt64} {k' : Kernel} (h : procExit s.proc code = some k') : Performed s (.exit code) k'
  | killAs {actor pid : Int32} {k' : Kernel} (h : procKillAs s.proc actor pid = some k') :
      Performed s (.killAs actor pid) k'
  | waitPid (pid : UInt64) (frame : Registers) : Performed s (.waitPid pid frame) (procWaitPid s.proc pid frame).1
  | waitPidAs {actor : Int32} {pid : UInt64} (frame : Registers)
      (ha : procCanAct s.proc actor pid.toUInt32.toInt32 = true) :
      Performed s (.waitPidAs actor pid frame) (procWaitPid s.proc pid frame).1
  | refused (actor : Int32) (pid : UInt64) (frame : Registers) : Performed s (.waitPidAs actor pid frame) s.proc
  | gone (frame : Registers) : Performed s (.resume frame) { s.proc with point := .process }
  | reaps {pid : UInt32} {i : Slot} (frame : Registers) (hp : s.proc.point = .waitPid pid)
      (hi : procFindIndex s.proc pid = some i) :
      Performed s (.resume frame) (procReap { s.proc with point := .process } i)
  | resumes (frame : Registers) :
      Performed s (.resume frame) ((signals s (.resume frame)).apply { s.proc with point := .process })
  | timer (frame : Registers) : Performed s (.timer frame) (procScheduleInterrupt s.proc frame)
  | startScheduling : Performed s .startScheduling (procStartScheduling s.proc)

/-- **Every operation** does one of these. -/
theorem performed {s s' : Sys} {o : Op} (h : perform s o = some s') : Performed s o s'.proc := by
  by_cases hca : o.onlyCalls = true
  · exact perform_signals hca h ▸ .signals hca
  by_cases hcr : o.creates = true ∧ o.vforks = false
  · exact .creates hcr.1 hcr.2 (created_perform hcr.1 hcr.2 h)
  cases o <;> simp only [Op.creates, Op.onlyCalls, Op.vforks, and_self, not_true_eq_false,
    true_and, Bool.not_eq_false] at hcr hca
  case vfork frame => cases h; exact .vfork frame
  case clone frame flags childStack page cloned =>
      cases h
      have hfl : flags &&& cloneVfork ≠ 0 := by simpa using hcr
      simp only [Sys.setProc_proc, procClone, if_pos hfl]
      exact .cloneVfork frame childStack page cloned hfl
  case exit =>
      obtain ⟨k', hk, rfl⟩ := Option.map_eq_some_iff.mp h
      exact .exit hk
  case killAs =>
      obtain ⟨k', hk, rfl⟩ := Option.map_eq_some_iff.mp h
      exact .killAs hk
  case waitPid pid frame => cases h; exact .waitPid pid frame
  case waitPidAs actor pid frame =>
      cases h
      simp only [Sys.setProc_proc, procWaitPidAs]
      split
      · next ha => exact .waitPidAs frame ha
      · exact .refused actor pid frame
  case resume frame =>
      by_cases hw : ∃ pid, s.proc.point = .waitPid pid
      · obtain ⟨pid, hp⟩ := hw
        simp only [perform, hp, resumeAt] at h
        cases h
        simp only [Sys.setProc_proc, procWaitPidResume]
        split
        · exact .gone frame
        · next i hi => exact .reaps frame hp hi
      · exact perform_resume_signals (fun pid e => hw ⟨pid, e⟩) h ▸ .resumes frame
  case timer frame => cases h; exact .timer frame
  case startScheduling => cases h; exact .startScheduling

end Blackmount.Proc
