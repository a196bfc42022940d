import Blackmount.Proc.Notify

/-!
# Proc — processes asleep in a socket call

A process BLOCKED past the `proc_yield` of `unix_sock_accept`, `unix_sock_read` or `unix_sock_recvfrom` is *asleep* on
a socket.  `Settles` relates two kernels between which nobody falls asleep: what scheduling, creation, termination and
reaping do.  `asleep_apply` says who may be asleep after an operation that only wakes, blocks and yields.
-/

namespace Blackmount.Proc
open Blackmount.Net Blackmount.Console Blackmount.Lib

/-- Where the process in slot `j` is: the processor's point for the one that runs, else that of its saved frame. -/
def pointOf (k : Kernel) (j : Slot) : KernelPoint :=
  if k.currentProc = some j then k.point else (k.procTable j).context.point

variable {k k' : Kernel}

theorem pointOf_other {j : Slot} (h : k.currentProc ≠ some j) :
    pointOf k j = (k.procTable j).context.point := if_neg h

/-- The socket a process at this point waits for a change of. -/
def waitsOn : KernelPoint → Option Int32
  | .unixAccept id | .unixRead id _ | .unixRecvfrom id _ => some id
  | _ => none

/-- BLOCKED inside a socket call. -/
def Asleep (k : Kernel) (j : Slot) : Prop :=
  (k.procTable j).state = .blocked ∧ waitsOn (pointOf k j) ≠ none

instance (k : Kernel) (j : Slot) : Decidable (Asleep k j) := by
  delta Asleep; infer_instance

/-- `proc_find_index` finds the slot by its PID, which is positive as an `int`. -/
def KnownByPid (k : Kernel) (j : Slot) : Prop :=
  0 < (k.procTable j).pid.toInt32 ∧ procFindIndex k (k.procTable j).pid = some j

instance (k : Kernel) (j : Slot) : Decidable (KnownByPid k j) := by
  delta KnownByPid; infer_instance

/-- Whoever is asleep in `k'` was so in `k`, at the same point and with the same PID, and is still found by it. -/
structure Settles (k k' : Kernel) : Prop where
  asleep : ∀ j, Asleep k' j → Asleep k j
  pid : ∀ j, Asleep k' j → (k'.procTable j).pid = (k.procTable j).pid
  point : ∀ j, Asleep k' j → pointOf k' j = pointOf k j
  known : ∀ j, Asleep k' j → KnownByPid k j → KnownByPid k' j

namespace Settles

theorem refl (k : Kernel) : Settles k k := ⟨fun _ h => h, fun _ _ => rfl, fun _ _ => rfl, fun _ _ h => h⟩

theorem trans {a b c : Kernel} (h₁ : Settles a b) (h₂ : Settles b c) : Settles a c where
  asleep j hj := h₁.asleep j (h₂.asleep j hj)
  pid j hj := (h₂.pid j hj).trans (h₁.pid j (h₂.asleep j hj))
  point j hj := (h₂.point j hj).trans (h₁.point j (h₂.asleep j hj))
  known j hj hk := h₂.known j hj (h₁.known j (h₂.asleep j hj) hk)

/-- Slots that lose their PID hide nobody else's. -/
theorem of_slots (hpid : ∀ i, (k'.procTable i).pid = (k.procTable i).pid ∨ (k'.procTable i).pid = 0)
    (hslot : ∀ j, Asleep k' j → (k.procTable j).state = .blocked ∧ (k'.procTable j).pid = (k.procTable j).pid ∧
      pointOf k' j = pointOf k j) : Settles k k' where
  asleep j hj := ⟨(hslot j hj).1, (hslot j hj).2.2 ▸ hj.2⟩
  pid j hj := (hslot j hj).2.1
  point j hj := (hslot j hj).2.2
  known j hj hk := by
    refine ⟨by rw [(hslot j hj).2.1]; exact hk.1, ?_⟩
    rw [(hslot j hj).2.1]
    refine procFindIndex_survives (fun e => ?_) hk.2 (hslot j hj).2.1 hpid
    have hpos := hk.1
    rw [e] at hpos
    exact absurd hpos (by decide)

/-- A process that goes on is at no point of the kernel. -/
theorem goOn (k : Kernel) : Settles k { k with point := .process } := by
  refine .of_slots (fun _ => .inl rfl) fun j hj => ⟨hj.1, rfl, ?_⟩
  have hwait := hj.2
  simp only [pointOf] at hwait ⊢
  split at hwait
  · exact absurd rfl hwait
  · next hc => rw [if_neg hc, if_neg hc]

end Settles

/-! ### Scheduling -/

theorem pointOf_congr {j : Slot} (hc : k'.currentProc = k.currentProc) (hp : k'.point = k.point)
    (hj : (k'.procTable j).context.point = (k.procTable j).context.point) : pointOf k' j = pointOf k j := by
  simp only [pointOf, hc, hp, hj]

theorem saved_pid (k : Kernel) (frame : Registers) (j : Slot) :
    ((saved k frame).procTable j).pid = (k.procTable j).pid := by
  rw [saved_procTable]
  split <;> rfl

/-- Saving the frame leaves a BLOCKED slot BLOCKED, with the point it is at in its frame. -/
theorem saved_blocked {frame : Registers} {j : Slot}
    (h : ((saved k frame).procTable j).state = .blocked) :
    (k.procTable j).state = .blocked ∧ ((saved k frame).procTable j).context.point = pointOf k j := by
  rw [saved_procTable] at h ⊢
  by_cases hc : k.currentProc = some j
  · by_cases hu : (k.procTable j).state = .unused
    · rw [if_neg fun hn => hn.2 hu, hu] at h
      cases h
    · rw [if_pos ⟨hc, hu⟩] at h ⊢
      simp only [Pcb.preempt] at h ⊢
      split at h
      · cases h
      · exact ⟨h, by rw [pointOf, if_pos hc]⟩
  · rw [if_neg fun hn => hc hn.1] at h ⊢
    exact ⟨h, by rw [pointOf, if_neg hc]⟩

theorem settles_procScheduleInterrupt (k : Kernel) (frame : Registers) : Settles k (procScheduleInterrupt k frame) := by
  rw [procScheduleInterrupt_eq]
  split
  · cases hn : findNext (saved k frame) with
    | none =>
        refine .of_slots (fun i => .inl (saved_pid k frame i)) fun j hj => ?_
        obtain ⟨hb, hp⟩ := saved_blocked hj.1
        refine ⟨hb, saved_pid k frame j, ?_⟩
        have hcontrol := sameControl_saved k frame
        simp only [pointOf, hcontrol.current, hcontrol.point, hp]
        split <;> rfl
    | some n =>
        have hpid : ∀ i, ((dispatch (saved k frame) n).procTable i).pid = (k.procTable i).pid := by
          intro i
          rw [dispatch_procTable]
          split
          · exact saved_pid k frame i
          · exact saved_pid k frame i
        refine .of_slots (fun i => .inl (hpid i)) fun j hj => ?_
        have hjn : j ≠ n := by
          rintro rfl
          have hr := hj.1
          rw [dispatch_procTable, if_pos rfl] at hr
          cases hr
        have hrow : (dispatch (saved k frame) n).procTable j = (saved k frame).procTable j := by
          rw [dispatch_procTable, if_neg hjn]
        obtain ⟨hb, hp⟩ := saved_blocked (hrow ▸ hj.1)
        refine ⟨hb, hpid j, ?_⟩
        have hcur : (dispatch (saved k frame) n).currentProc = some n := rfl
        rw [pointOf, hcur, if_neg fun e => hjn (Option.some.inj e).symm, hrow, hp]
  · exact .refl k

theorem settles_procYield (k : Kernel) (point : KernelPoint) (frame : Registers) :
    Settles { k with point := point } (procYield k point frame) := by
  simp only [procYield]
  split
  · exact settles_procScheduleInterrupt _ _
  · exact .refl _

/-- Starting the scheduler when nothing runs yet. -/
theorem settles_procStartScheduling (h : k.currentProc = none ∨ ∀ i, (k.procTable i).state ≠ .ready) :
    Settles k (procStartScheduling k) := by
  -- a READY slot is made the running one
  have hrun : ∀ i k', (k.procTable i).state = .ready → k'.currentProc = some i →
      (∀ j, k'.procTable j = if j = i then (k.procTable j).setState .running else k.procTable j) → Settles k k' := by
    intro i k' hi hcur hrows
    have hpid : ∀ j, (k'.procTable j).pid = (k.procTable j).pid := by
      intro j
      rw [hrows]
      split <;> rfl
    refine .of_slots (fun j => .inl (hpid j)) fun j hj => ?_
    have hji : j ≠ i := by
      rintro rfl
      have hr := hj.1
      rw [hrows, if_pos rfl] at hr
      cases hr
    have hnone : k.currentProc = none := h.resolve_right fun hn => hn i hi
    have hrow : k'.procTable j = k.procTable j := by rw [hrows, if_neg hji]
    refine ⟨hrow ▸ hj.1, hpid j, ?_⟩
    rw [pointOf, pointOf, hcur, hnone, if_neg fun e => hji (Option.some.inj e).symm, if_neg nofun, hrow]
  simp only [procStartScheduling]
  split
  · next i hi =>
      have hr := List.find?_some hi
      simp only [Bool.and_eq_true, beq_iff_eq] at hr
      exact hrun i _ hr.1 rfl fun j => dispatch_procTable { k with schedulingEnabled := true } i j
  · split
    · next i hi =>
        have hr := List.find?_some hi
        simp only [beq_iff_eq] at hr
        refine hrun i _ hr rfl fun j => ?_
        rw [Kernel.modify_apply]
        split
        · next e => rw [e]
        · rfl
    · refine .of_slots (fun _ => .inl rfl) fun j hj => ⟨hj.1, rfl, rfl⟩

/-! ### Creation -/

/-- The new PID is that of nobody asleep. -/
def FreshPid (k : Kernel) : Prop := ∀ j, Asleep k j → (k.procTable j).pid ≠ k.nextPid

instance (k : Kernel) : Decidable (FreshPid k) := by
  delta FreshPid; infer_instance

theorem settles_created (h : CreatedBeside k k') (hfresh : FreshPid k) : Settles k k' := by
  have hpoint : ∀ {j}, SameState (k.procTable j) (k'.procTable j) → pointOf k' j = pointOf k j := fun hs =>
    pointOf_congr h.current h.point hs.point
  cases h.created with
  | nothing hslot _ =>
      refine .of_slots (fun i => .inl (hslot i).pid) fun j hj => ?_
      exact ⟨(hslot j).state ▸ hj.1, (hslot j).pid, hpoint (hslot j)⟩
  | @born slot hu hnew hslot _ =>
      have hne : ∀ {j}, Asleep k' j → j ≠ slot := by
        rintro j hj rfl
        have hb := hj.1
        rw [hnew.state] at hb
        cases hb
      have hold : ∀ {j}, Asleep k' j → Asleep k j := fun {j} hj =>
        ⟨(hslot j (hne hj)).state ▸ hj.1, hpoint (hslot j (hne hj)) ▸ hj.2⟩
      refine ⟨fun j hj => hold hj, fun j hj => (hslot j (hne hj)).pid, fun j hj => hpoint (hslot j (hne hj)),
        fun j hj hk => ?_⟩
      have hpid := (hslot j (hne hj)).pid
      refine ⟨hpid ▸ hk.1, ?_⟩
      -- the new slot may come before `j`, but has another PID
      obtain ⟨-, hfirst⟩ := procFindIndex_eq_some.mp hk.2
      refine procFindIndex_eq_some.mpr ⟨rfl, fun i hi => ?_⟩
      rw [hpid]
      by_cases e : i = slot
      · subst e
        rw [hnew.pid]
        exact fun e => hfresh j (hold hj) e.symm
      · rw [(hslot i e).pid]
        exact hfirst i hi

/-- A vfork parent is BLOCKED in its own code. -/
theorem settles_procVfork (hpoint : k.point = .process) (hfresh : FreshPid k) (frame : Registers) :
    Settles k (procVfork k frame).1 := by
  rcases procVfork_cases k frame with e | ⟨parent, slot, k₁, hcur, -, hc, -, -, e⟩
  · rw [e]
    exact .refl k
  rw [e]
  refine (settles_created hc hfresh).trans ?_
  have hpid : ∀ j, ((k₁.modify parent fun p => p.awaitVfork k.nextPid frame).procTable j).pid =
      (k₁.procTable j).pid := by
    intro j
    rw [Kernel.modify_apply]
    split
    · next e => rw [e]; rfl
    · rfl
  refine .of_slots (fun j => .inl (hpid j)) fun j hj => ?_
  have hjp : j ≠ parent := by
    rintro rfl
    refine hj.2 ?_
    rw [pointOf, Kernel.modify_currentProc, hc.current, hcur, if_pos rfl]
    show waitsOn k₁.point = none
    rw [hc.point, hpoint]
    rfl
  have hrow := Kernel.modify_other k₁ (fun p => p.awaitVfork k.nextPid frame) hjp
  exact ⟨hrow ▸ hj.1, hpid j, pointOf_congr rfl rfl (by rw [hrow])⟩

/-! ### Termination and reaping -/

/-- A slot that `proc_terminate` leaves BLOCKED was so, and is as it was. -/
theorem Fate.blocked {i j : Slot} {code : UInt32} {p' : Pcb} (h : Fate k i code j p')
    (hb : p'.state = .blocked) : j ≠ i ∧ (k.procTable j).state = .blocked ∧ SameRecord (k.procTable j) p' := by
  cases h with
  | erased _ _ _ hst _ => rw [hst] at hb; cases hb
  | reborn _ _ _ _ hst => rw [hst] at hb; cases hb
  | woken _ hst _ _ => rw [hst] at hb; cases hb
  | kept hid hst _ =>
      by_cases e : j = i
      · rw [hst, deathbed, if_pos e] at hb
        cases hb
      · rw [deathbed, if_neg e] at hid hst
        exact ⟨e, hst ▸ hb, hid⟩

theorem Fate.pid {i j : Slot} {code : UInt32} {p' : Pcb} (h : Fate k i code j p') :
    p'.pid = (k.procTable j).pid ∨ p'.pid = 0 := by
  have hbed : (deathbed k i code j).pid = (k.procTable j).pid := by
    rw [deathbed]
    split <;> rfl
  cases h with
  | erased _ _ hid _ _ => exact .inr hid.pid
  | reborn _ _ _ hid _ => exact .inr hid.pid
  | kept hid _ _ => exact .inl (hid.pid.trans hbed)
  | woken hid _ _ _ => exact .inl (hid.pid.trans hbed)

theorem settles_procTerminate {i : Slot} {code : UInt64} (h : procTerminate k i code = some k') :
    Settles k k' := by
  have hfate := fate_procTerminate h
  have hcontrol := sameControl_procTerminate h
  refine .of_slots (fun j => (hfate j).pid) fun j hj => ?_
  obtain ⟨-, hb, hrec⟩ := (hfate j).blocked hj.1
  exact ⟨hb, hrec.pid, pointOf_congr hcontrol.current hcontrol.point hrec.point⟩

theorem settles_procKillAs {actor pid : Int32} (h : procKillAs k actor pid = some k') :
    Settles k k' := by
  simp only [procKillAs] at h
  split at h
  · split at h
    · cases h; exact .refl k
    · exact settles_procTerminate h
  · cases h; exact .refl k

/-- The process that exits is not asleep; the next one takes its place. -/
theorem settles_procExit {code : UInt64} (h : procExit k code = some k') : Settles k k' := by
  simp only [procExit] at h
  cases hc : k.currentProc with
  | none =>
      rw [hc] at h
      cases h
      have hgo := Settles.goOn k
      rwa [hc] at hgo
  | some i =>
      rw [hc] at h
      obtain ⟨k₁, h₁, rfl⟩ := Option.map_eq_some_iff.mp h
      have hfate := fate_procTerminate h₁
      -- whatever follows, no BLOCKED slot is the running one or changes its row
      have hleave : ∀ k', (∀ j, (k'.procTable j).state = .blocked → k'.procTable j = k₁.procTable j ∧
          k'.currentProc ≠ some j) → (∀ j, (k'.procTable j).pid = (k₁.procTable j).pid) → Settles k k' := by
        intro k' hrow hpid
        refine .of_slots (fun j => by rw [hpid]; exact (hfate j).pid) fun j hj => ?_
        obtain ⟨hsame, hne⟩ := hrow j hj.1
        obtain ⟨hji, hb, hrec⟩ := (hfate j).blocked (hsame ▸ hj.1)
        refine ⟨hb, (hpid j).trans hrec.pid, ?_⟩
        rw [pointOf, pointOf, if_neg hne, hc, if_neg fun e => hji (Option.some.inj e).symm, hsame, hrec.point]
      have hdispatch : ∀ n k', k'.procTable = (dispatch k₁ n).procTable → k'.currentProc = some n → Settles k k' := by
        intro n k' ht hcur
        refine hleave k' (fun j hj => ?_) fun j => ?_
        · rw [ht, dispatch_procTable] at hj ⊢
          by_cases e : j = n
          · rw [if_pos e] at hj
            cases hj
          · rw [if_neg e, hcur]
            exact ⟨rfl, fun e' => e (Option.some.inj e').symm⟩
        · rw [ht, dispatch_procTable]
          split <;> rfl
      split
      · next n hn =>
          split
          · exact hdispatch n _ rfl rfl
          · split
            · exact hdispatch n _ rfl rfl
            · exact hdispatch n _ rfl rfl
      · split
        · exact hleave _ (fun j _ => ⟨rfl, fun e => by cases e⟩) fun j => rfl
        · exact hleave _ (fun j _ => ⟨rfl, fun e => by cases e⟩) fun j => rfl

theorem settles_procReap (k : Kernel) (i : Slot) : Settles k (procReap k i) := by
  have hcontrol := sameControl_pcbRelease k i
  have hrow : ∀ j, (procReap k i).procTable j = if j = i then (k.procTable j).clearHead else k.procTable j := by
    intro j
    simp only [procReap, pcbRelease]
    split <;> rw [Kernel.modify_apply] <;> split
    · next e => rw [e]
    · rfl
    · next e => rw [e]; rfl
    · rfl
  refine .of_slots (fun j => ?_) fun j hj => ?_
  · rw [hrow]
    split
    · exact .inr rfl
    · exact .inl rfl
  · have hji : j ≠ i := by
      rintro rfl
      have hb := hj.1
      rw [hrow, if_pos rfl] at hb
      cases hb
    have hsame : (procReap k i).procTable j = k.procTable j := by rw [hrow, if_neg hji]
    exact ⟨hsame ▸ hj.1, by rw [hsame], pointOf_congr hcontrol.current hcontrol.point (by rw [hsame])⟩

/-- The slot `proc_wait_pid` blocks is not inside a socket call. -/
def WaitsAwake (k : Kernel) : Prop :=
  ∀ j, procFindIndex k (procGetCurrentPid k).toUInt32 = some j → waitsOn (pointOf k j) = none

instance (k : Kernel) : Decidable (WaitsAwake k) := by
  delta WaitsAwake; infer_instance

theorem settles_procWaitPid (h : WaitsAwake k) (pid : UInt64) (frame : Registers) :
    Settles k (procWaitPid k pid frame).1 := by
  simp only [procWaitPid]
  split
  · exact .refl k
  · next i hi =>
      split
      · split
        · exact .refl k
        · next p hp =>
            refine Settles.trans ?_ (settles_procYield _ _ _)
            have hpid : ∀ j, ((k.modify p fun q => (q.setWaitingFor pid.toUInt32).setState .blocked).procTable j).pid =
                (k.procTable j).pid := by
              intro j
              rw [Kernel.modify_apply]
              split
              · next e => rw [e]; rfl
              · rfl
            have hctx : ∀ j, ((k.modify p fun q =>
                (q.setWaitingFor pid.toUInt32).setState .blocked).procTable j).context.point =
                  (k.procTable j).context.point := by
              intro j
              rw [Kernel.modify_apply]
              split
              · next e => rw [e]; rfl
              · rfl
            refine .of_slots (fun j => .inl (hpid j)) fun j hj => ?_
            have hcur : k.currentProc ≠ some j := by
              intro hc
              refine hj.2 ?_
              rw [pointOf]
              simp only [Kernel.modify_currentProc, hc, if_true]
              rfl
            have hpoint : pointOf { k.modify p (fun q => (q.setWaitingFor pid.toUInt32).setState .blocked) with
                point := .waitPid pid.toUInt32 } j = pointOf k j := by
              have hcur' : (k.modify p fun q =>
                  (q.setWaitingFor pid.toUInt32).setState .blocked).currentProc ≠ some j := hcur
              refine Eq.trans (if_neg hcur') ?_
              exact (hctx j).trans (pointOf_other hcur).symm
            refine ⟨?_, hpid j, hpoint⟩
            have hjp : j ≠ p := by
              rintro rfl
              refine hj.2 ?_
              rw [hpoint]
              exact h j hp
            have hb := hj.1
            rw [Kernel.modify_other _ _ hjp] at hb
            exact hb
      · exact settles_procReap k i

/-! ### Waking, blocking, yielding -/

/-- The socket an operation that yields is then asleep on. -/
def Signals.waitsOn (σ : Signals) : Option Int32 := σ.yields.bind fun y => Proc.waitsOn y.1

/-- Who is asleep once the signals are through: the process that went to sleep by them, or one that was asleep and was
not woken. -/
theorem asleep_apply {σ : Signals} {j : Slot}
    (hblocks : ∀ j, NamedBy k σ.blocks.toList j → Proc.waitsOn (pointOf k j) = none) (h : Asleep (σ.apply k) j) :
    (k.currentProc = some j ∧ Proc.waitsOn (pointOf (σ.apply k) j) = σ.waitsOn ∧
        ∃ frame, σ.yields = some (pointOf (σ.apply k) j, frame)) ∨
      Asleep k j ∧ pointOf (σ.apply k) j = pointOf k j ∧ ¬ NamedBy k σ.wakes j := by
  have htouch := σ.sameControl_touch k
  -- before the yield
  have hpoint : pointOf (σ.touch k) j = pointOf k j := by
    refine pointOf_congr htouch.current htouch.point ?_
    rw [Signals.touch_procTable]
    split_ifs <;> rfl
  have hold : ((σ.touch k).procTable j).state = .blocked → Proc.waitsOn (pointOf k j) ≠ none →
      Asleep k j ∧ ¬ NamedBy k σ.wakes j := by
    intro hb hw
    rw [Signals.touch_procTable, if_neg fun hn => hw (hblocks j hn)] at hb
    split at hb
    · cases hb
    · next hn => exact ⟨⟨hb, hw⟩, hn⟩
  cases hy : σ.yields with
  | none =>
      have happly : σ.apply k = σ.touch k := by simp only [Signals.apply, Signals.touch, hy, procYield?]
      rw [happly] at h ⊢
      have hw := h.2
      rw [hpoint] at hw
      exact .inr ⟨(hold h.1 hw).1, hpoint, (hold h.1 hw).2⟩
  | some y =>
      obtain ⟨point, frame⟩ := y
      have happly : σ.apply k = procYield (σ.touch k) point frame := by
        simp only [Signals.apply, Signals.touch, hy, procYield?]
      rw [happly] at h ⊢
      have hs := settles_procYield (σ.touch k) point frame
      rw [hs.point j h]
      have hbefore := hs.asleep j h
      by_cases hc : k.currentProc = some j
      · have hat : pointOf { σ.touch k with point := point } j = point := by
          rw [pointOf, if_pos (htouch.current.trans hc)]
        refine .inl ⟨hc, ?_, frame, ?_⟩
        · rw [hat, Signals.waitsOn, hy]
          rfl
        · rw [hat]
      · have hat : pointOf { σ.touch k with point := point } j = pointOf k j := by
          rw [← hpoint, pointOf, pointOf]
          simp only [htouch.current, if_neg hc]
        have hw := hbefore.2
        rw [hat] at hw
        exact .inr ⟨(hold hbefore.1 hw).1, hat, (hold hbefore.1 hw).2⟩

theorem procYield_pid (k : Kernel) (point : KernelPoint) (frame : Registers) (j : Slot) :
    ((procYield k point frame).procTable j).pid = (k.procTable j).pid :=
  (calm_procYield k point frame).pid j

theorem Signals.apply_pid (σ : Signals) (k : Kernel) (j : Slot) :
    ((σ.apply k).procTable j).pid = (k.procTable j).pid := by
  have htouch : ((σ.touch k).procTable j).pid = (k.procTable j).pid := by
    rw [Signals.touch_procTable]
    split_ifs <;> rfl
  cases hy : σ.yields with
  | none =>
      have happly : σ.apply k = σ.touch k := by simp only [Signals.apply, Signals.touch, hy, procYield?]
      rw [happly]
      exact htouch
  | some y =>
      have happly : σ.apply k = procYield (σ.touch k) y.1 y.2 := by
        simp only [Signals.apply, Signals.touch, hy, procYield?]
      rw [happly]
      exact (procYield_pid _ _ _ j).trans htouch

theorem knownByPid_congr (h : ∀ i, (k'.procTable i).pid = (k.procTable i).pid) (j : Slot) :
    KnownByPid k' j ↔ KnownByPid k j := by
  simp only [KnownByPid, h, procFindIndex_congr h]

/-- A known process whose PID is among those woken is woken. -/
theorem KnownByPid.namedBy {j : Slot} (h : KnownByPid k j) {pids : List Int32}
    (hmem : (k.procTable j).pid.toInt32 ∈ pids) : NamedBy k pids j :=
  ⟨_, hmem, by simpa using h.2⟩

end Blackmount.Proc
