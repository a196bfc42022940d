import Blackmount.Proc.Moves

/-!
# Proc — exit notifications

A process that is BLOCKED and waits for a PID should have a live process of that PID to wait for:
otherwise nothing will wake it.  `proc_terminate` wakes the vfork parent and the parent, and no
other waiter; the processes `proc_kill_children` erases wake nobody; and `proc_wait_pid`, past its
`proc_yield`, erases whatever slot has the PID.

`Notifies s o` says of an operation, in the state before it, that the processes it ends have no
waiter left behind, and that a process it blocks does not wait for a dead one.  In a run of such
operations no wait is lost (`no_wait_lost`).
-/

namespace Blackmount.Proc
open Blackmount.Net Blackmount.Console Blackmount.Lib

/-- A live slot has this PID. -/
def LivePid (k : Kernel) (pid : UInt32) : Prop := ∃ j, (k.procTable j).pid = pid ∧ Alive k j

instance (k : Kernel) (pid : UInt32) : Decidable (LivePid k pid) := by
  delta LivePid; infer_instance

/-- Every BLOCKED process that waits for a PID waits for a live process. -/
def NoLostWait (k : Kernel) : Prop :=
  ∀ w, (k.procTable w).state = .blocked → (k.procTable w).waitingFor ≠ 0xFFFFFFFF →
    LivePid k (k.procTable w).waitingFor

instance (k : Kernel) : Decidable (NoLostWait k) := by
  delta NoLostWait; infer_instance

/-- No slot becomes BLOCKED, and live processes stay alive. -/
structure Quieter (k k' : Kernel) : Prop where
  blocked : ∀ w, (k'.procTable w).state = .blocked →
    (k.procTable w).state = .blocked ∧ (k'.procTable w).waitingFor = (k.procTable w).waitingFor
  alive : ∀ j, Alive k j → Alive k' j ∧ (k'.procTable j).pid = (k.procTable j).pid

variable {k k' : Kernel}

namespace Quieter

theorem refl (k : Kernel) : Quieter k k := ⟨fun _ h => ⟨h, rfl⟩, fun _ h => ⟨h, rfl⟩⟩

theorem trans {a b c : Kernel} (h₁ : Quieter a b) (h₂ : Quieter b c) : Quieter a c where
  blocked w hw := by
    obtain ⟨hb, e₂⟩ := h₂.blocked w hw
    obtain ⟨ha, e₁⟩ := h₁.blocked w hb
    exact ⟨ha, e₂.trans e₁⟩
  alive j hj := by
    obtain ⟨hb, e₁⟩ := h₁.alive j hj
    obtain ⟨hc, e₂⟩ := h₂.alive j hb
    exact ⟨hc, e₂.trans e₁⟩

theorem of_table (h : k'.procTable = k.procTable) : Quieter k k' :=
  ⟨fun w hw => by rw [h] at hw ⊢; exact ⟨hw, rfl⟩, fun j hj => by
    rw [Alive, h]; exact ⟨hj, rfl⟩⟩

theorem livePid (h : Quieter k k') {pid : UInt32} (hl : LivePid k pid) :
    LivePid k' pid := by
  obtain ⟨j, hp, hj⟩ := hl
  obtain ⟨hj', e⟩ := h.alive j hj
  exact ⟨j, e.trans hp, hj'⟩

end Quieter

theorem NoLostWait.quieter (hn : NoLostWait k) (h : Quieter k k') :
    NoLostWait k' := by
  intro w hw hne
  obtain ⟨hb, e⟩ := h.blocked w hw
  rw [e] at hne ⊢
  exact h.livePid (hn w hb hne)

/-! ### Scheduling -/

theorem quieter_saved (k : Kernel) (frame : Registers) : Quieter k (saved k frame) := by
  constructor
  · intro w hw
    rw [saved_procTable] at hw ⊢
    split at hw
    · next hc =>
        rw [if_pos hc]
        simp only [Pcb.preempt] at hw
        split at hw
        · cases hw
        · exact ⟨hw, rfl⟩
    · next hc => rw [if_neg hc]; exact ⟨hw, rfl⟩
  · intro j hj
    rw [Alive, saved_procTable]
    split
    · refine ⟨?_, rfl⟩
      simp only [Pcb.preempt]
      split
      · simp
      · exact hj
    · exact ⟨hj, rfl⟩

theorem quieter_dispatch (k : Kernel) (next : Slot) : Quieter k (dispatch k next) := by
  constructor
  · intro w hw
    rw [dispatch_procTable] at hw ⊢
    split at hw
    · cases hw
    · next hne => rw [if_neg hne]; exact ⟨hw, rfl⟩
  · intro j hj
    rw [Alive, dispatch_procTable]
    split
    · exact ⟨by simp [Pcb.setState], rfl⟩
    · exact ⟨hj, rfl⟩

theorem quieter_procScheduleInterrupt (k : Kernel) (frame : Registers) :
    Quieter k (procScheduleInterrupt k frame) := by
  rw [procScheduleInterrupt_eq]
  split
  · split
    · exact quieter_saved k frame
    · exact (quieter_saved k frame).trans (quieter_dispatch _ _)
  · exact .refl k

theorem quieter_procYield (k : Kernel) (point : KernelPoint) (frame : Registers) :
    Quieter k (procYield k point frame) := by
  have hpoint : Quieter k { k with point := point } := .of_table rfl
  simp only [procYield]
  split
  · exact hpoint.trans (quieter_procScheduleInterrupt _ _)
  · exact hpoint

theorem quieter_procStartScheduling (k : Kernel) : Quieter k (procStartScheduling k) := by
  have hon : Quieter k { k with schedulingEnabled := true } := .of_table rfl
  simp only [procStartScheduling]
  split
  · exact hon.trans (quieter_dispatch _ _)
  · split
    · next i _ =>
        -- as a dispatch, without a change of the space
        have hd := quieter_dispatch { k with schedulingEnabled := true } i
        exact hon.trans (hd.trans (.of_table rfl))
    · exact hon

/-! ### Blocking and waking -/

/-- Slot `i` may be blocked: it waits for nothing, for itself or for a live process. -/
def Settled (k : Kernel) (i : Slot) : Prop :=
  (k.procTable i).waitingFor = 0xFFFFFFFF ∨ (k.procTable i).waitingFor = (k.procTable i).pid ∨
    LivePid k (k.procTable i).waitingFor

instance (k : Kernel) (i : Slot) : Decidable (Settled k i) := by
  delta Settled; infer_instance

theorem noLostWait_apply (hn : NoLostWait k) {σ : Signals}
    (hok : ∀ i, NamedBy k σ.blocks.toList i → Settled k i) : NoLostWait (σ.apply k) := by
  have halive : ∀ j, Alive k j → Alive (σ.touch k) j := by
    intro j hj
    rw [Alive, σ.touch_procTable]
    split_ifs
    · simp [Pcb.setState]
    · simp [Pcb.setState]
    · exact hj
  have hrec : ∀ j, ((σ.touch k).procTable j).pid = (k.procTable j).pid ∧
      ((σ.touch k).procTable j).waitingFor = (k.procTable j).waitingFor := by
    intro j
    rw [σ.touch_procTable]
    split_ifs <;> exact ⟨rfl, rfl⟩
  have hlive : ∀ pid, LivePid k pid → LivePid (σ.touch k) pid := by
    rintro pid ⟨j, hp, hj⟩
    exact ⟨j, (hrec j).1.trans hp, halive j hj⟩
  have htouch : NoLostWait (σ.touch k) := by
    intro w hw hne
    rw [(hrec w).2] at hne ⊢
    by_cases hb : NamedBy k σ.blocks.toList w
    · rcases hok w hb with e | e | e
      · exact absurd e hne
      · exact ⟨w, (hrec w).1.trans e.symm, by simp [Alive, hw]⟩
      · exact hlive _ e
    · rw [σ.touch_procTable, if_neg hb] at hw
      split at hw
      · cases hw
      · exact hlive _ (hn w hw hne)
  have happly : σ.apply k = procYield? (σ.touch k) σ.yields := rfl
  rw [happly]
  cases σ.yields with
  | none => exact htouch
  | some y => exact htouch.quieter (quieter_procYield _ _ _)

/-! ### Creation -/

theorem quieter_created (h : CreatedBeside k k') : Quieter k k' := by
  cases h.created with
  | nothing hslot =>
      refine ⟨fun w hw => ?_, fun j hj => ?_⟩
      · rw [(hslot w).state] at hw
        exact ⟨hw, (hslot w).waitingFor⟩
      · rw [Alive, (hslot j).state]
        exact ⟨hj, (hslot j).pid⟩
  | @born slot hu hnew hslot =>
      refine ⟨fun w hw => ?_, fun j hj => ?_⟩
      · by_cases e : w = slot
        · subst e; rw [hnew.state] at hw; cases hw
        · rw [(hslot w e).state] at hw
          exact ⟨hw, (hslot w e).waitingFor⟩
      · have e : j ≠ slot := fun e => hj.1 (e ▸ hu)
        rw [Alive, (hslot j e).state]
        exact ⟨hj, (hslot j e).pid⟩

/-- A vfork parent waits for its child, which is READY. -/
theorem noLostWait_procVfork (hn : NoLostWait k) (frame : Registers) :
    NoLostWait (procVfork k frame).1 := by
  rcases procVfork_cases k frame with e | ⟨parent, slot, k₁, -, -, hc, hnew, -, e⟩
  · rw [e]; exact hn
  rw [e]
  have hn₁ : NoLostWait k₁ := hn.quieter (quieter_created hc)
  have halive : ∀ j, Alive k₁ j →
      Alive (k₁.modify parent fun p => p.awaitVfork k.nextPid frame) j ∧
      ((k₁.modify parent fun p => p.awaitVfork k.nextPid frame).procTable j).pid =
        (k₁.procTable j).pid := by
    intro j hj
    rw [Alive, Kernel.modify_apply]
    split
    · next e => exact ⟨by simp [Pcb.awaitVfork], by rw [e]; rfl⟩
    · exact ⟨hj, rfl⟩
  intro w hw hne
  by_cases e : w = parent
  · subst e
    obtain ⟨ha, hpid⟩ := halive slot (by simp [Alive, hnew.state])
    refine ⟨slot, hpid.trans (hnew.pid.trans ?_), ha⟩
    simp [Pcb.awaitVfork]
  · rw [Kernel.modify_other _ _ e] at hw hne ⊢
    obtain ⟨j, hpid, hj⟩ := hn₁ w hw hne
    exact ⟨j, (halive j hj).2.trans hpid, (halive j hj).1⟩

/-! ### Recursive kill erases every descendant -/

/-- Erased slots have no live children left. -/
structure Purged (k k' : Kernel) : Prop where
  sunk : Sunk k k'
  orphans : ∀ m, Alive k m → ¬ Alive k' m → ∀ j, Alive k' j →
    (k'.procTable j).ppid ≠ (k.procTable m).pid

namespace Purged

theorem of_alive (h : Purged k k') {j : Slot} (hj : Alive k' j) :
    k'.procTable j = k.procTable j :=
  (h.sunk j).resolve_right fun e => not_alive_clearHead e.2 hj

theorem alive (h : Purged k k') {j : Slot} (hj : Alive k' j) : Alive k j := by
  have e := h.of_alive hj
  rwa [Alive, e] at hj

theorem refl (k : Kernel) : Purged k k := ⟨.refl k, fun _ hm hn => absurd hm hn⟩

theorem trans {a b c : Kernel} (h₁ : Purged a b) (h₂ : Purged b c) : Purged a c where
  sunk := h₁.sunk.trans h₂.sunk
  orphans m hm hn j hj := by
    by_cases hb : Alive b m
    · rw [← h₁.of_alive hb]
      exact h₂.orphans m hb hn j hj
    · rw [h₂.of_alive hj]
      exact h₁.orphans m hm hb j (h₂.alive hj)

end Purged

theorem procKillChildren_purges : ∀ {fuel : Nat} {k k' : Kernel} {pid : UInt32},
    procKillChildren fuel k pid = some k' →
      Purged k k' ∧ ∀ j, Alive k' j → (k'.procTable j).ppid ≠ pid
  | 0, _, _, _, h => by cases h
  | fuel + 1, k, k', pid, h => by
      -- a slot the loop has visited is no live child any more
      have hbody : ∀ s i s', (if (s.procTable i).state = .unused ∨ (s.procTable i).state = .zombie
          then some s else if (s.procTable i).ppid ≠ pid then some s
          else (procKillChildren fuel s (s.procTable i).pid).map fun s => pcbRelease s i) = some s' →
          Purged s s' ∧ (Alive s' i → (s'.procTable i).ppid ≠ pid) := by
        intro s i s' hb
        split at hb
        · next hd => cases hb; exact ⟨.refl s, fun ha => absurd hd (not_or.mpr ha)⟩
        · next hd =>
            split at hb
            · next hp => cases hb; exact ⟨.refl s, fun _ => hp⟩
            · obtain ⟨s₂, h₂, rfl⟩ := Option.map_eq_some_iff.mp hb
              obtain ⟨hpur, hno⟩ := procKillChildren_purges h₂
              have hself : ¬ Alive (pcbRelease s₂ i) i :=
                not_alive_clearHead (by rw [pcbRelease_procTable, if_pos rfl])
              have hother : ∀ j, Alive (pcbRelease s₂ i) j →
                  j ≠ i ∧ (pcbRelease s₂ i).procTable j = s₂.procTable j ∧ Alive s₂ j := by
                intro j hj
                have hji : j ≠ i := fun e => hself (e ▸ hj)
                have e : (pcbRelease s₂ i).procTable j = s₂.procTable j := by
                  rw [pcbRelease_procTable, if_neg hji]
                exact ⟨hji, e, by rwa [Alive, e] at hj⟩
              refine ⟨⟨fun j => ?_, fun m hm hn j hj => ?_⟩, fun ha => absurd ha hself⟩
              · rw [pcbRelease_procTable]
                split
                · next e =>
                    subst e
                    rcases hpur.sunk j with e | ⟨-, e⟩
                    · exact .inr ⟨not_or.mp hd, by rw [e]⟩
                    · exact .inr ⟨not_or.mp hd, by rw [e]; rfl⟩
                · exact hpur.sunk j
              · obtain ⟨-, e, hj₂⟩ := hother j hj
                rw [e]
                by_cases hmi : m = i
                · subst hmi; exact hno j hj₂
                · refine hpur.orphans m hm (fun hm₂ => hn ?_) j hj₂
                  rw [Alive, pcbRelease_procTable, if_neg hmi]
                  exact hm₂
      have hloop : ∀ (l : List Slot) (s s' : Kernel), l.foldlM (fun s i =>
          if (s.procTable i).state = .unused ∨ (s.procTable i).state = .zombie then some s
          else if (s.procTable i).ppid ≠ pid then some s
          else (procKillChildren fuel s (s.procTable i).pid).map fun s => pcbRelease s i) s = some s' →
          Purged s s' ∧ ∀ j ∈ l, Alive s' j → (s'.procTable j).ppid ≠ pid := by
        intro l
        induction l with
        | nil => intro s s' hl; cases hl; exact ⟨.refl s, fun _ hj => by cases hj⟩
        | cons i l ih =>
            intro s s' hl
            obtain ⟨s₁, h₁, h₂⟩ := Option.bind_eq_some_iff.mp hl
            obtain ⟨hpur₁, hi⟩ := hbody s i s₁ h₁
            obtain ⟨hpur₂, hrest⟩ := ih s₁ s' h₂
            refine ⟨hpur₁.trans hpur₂, fun j hj ha => ?_⟩
            rcases List.mem_cons.mp hj with rfl | hj
            · rw [hpur₂.of_alive ha]
              exact hi (hpur₂.alive ha)
            · exact hrest j hj ha
      obtain ⟨hpur, hall⟩ := hloop _ k k' h
      exact ⟨hpur, fun j ha => hall j (List.mem_finRange j) ha⟩

theorem procKillChildren_erases {fuel : Nat} {pid : UInt32} {j : Slot}
    (h : procKillChildren fuel k pid = some k') (hd : Descends k pid j) : ¬ Alive k' j := by
  obtain ⟨hpur, hno⟩ := procKillChildren_purges h
  induction hd with
  | child hj hp =>
      intro ha
      refine hno _ ha ?_
      rw [hpur.of_alive ha, hp]
  | under hm hj hp ih =>
      intro ha
      refine hpur.orphans _ hm.alive ih _ ha ?_
      rw [hpur.of_alive ha, hp]

/-- A descendant of the process that dies is not BLOCKED afterwards. -/
theorem procTerminate_erases {i w : Slot} {code : UInt64}
    (h : procTerminate k i code = some k') (hne : w ≠ i)
    (hd : Descends k (k.procTable i).pid w) : (k'.procTable w).state ≠ .blocked := by
  simp only [procTerminate] at h
  obtain ⟨k₂, h₂, rfl⟩ := Option.map_eq_some_iff.mp h
  set k₁ := k.modify i fun p => p.die code.toUInt32 with hk₁
  have hsame : ∀ j, j ≠ i → k₁.procTable j = k.procTable j := fun j hj => Kernel.modify_other k _ hj
  -- a path through the dying slot starts afresh there
  have hd₁ : w ≠ i → Descends k₁ (k.procTable i).pid w := by
    clear hne
    induction hd with
    | @child j hj hp =>
        intro hji
        exact .child (by rw [Alive, hsame j hji]; exact hj) (by rw [hsame j hji]; exact hp)
    | @under m j hm hj hp ih =>
        intro hji
        have hj₁ : Alive k₁ j := by rw [Alive, hsame j hji]; exact hj
        by_cases hmi : m = i
        · exact .child hj₁ (by rw [hsame j hji, hp, hmi])
        · exact .under (ih hmi) hj₁ (by rw [hsame j hji, hp, hsame m hmi])
  have hdead := procKillChildren_erases h₂ (hd₁ hne)
  obtain ⟨p', hp', -, hcase⟩ := wakes_procTable k₂ i w (k.procTable i).pid
  rw [← hp']
  rcases hcase with ⟨hst, -⟩ | ⟨hst, -⟩
  · rw [hst]
    intro hb
    exact hdead (by simp [Alive, hb])
  · simp [hst]

/-! ### Termination -/

/-- Every process that is BLOCKED and waits, other than the one that dies, is erased with it, is
woken by its death, or waits for a process that goes on living. -/
def TerminateNotifies (k : Kernel) (i : Slot) : Prop :=
  ∀ w, w ≠ i → (k.procTable w).state = .blocked → (k.procTable w).waitingFor ≠ 0xFFFFFFFF →
    Descends k (k.procTable i).pid w ∨ WokenBy k i w ∨
      ∃ j, j ≠ i ∧ (k.procTable j).pid = (k.procTable w).waitingFor ∧ Alive k j ∧
        ¬ Descends k (k.procTable i).pid j

theorem noLostWait_procTerminate {i : Slot} {code : UInt64}
    (hok : TerminateNotifies k i) (h : procTerminate k i code = some k') : NoLostWait k' := by
  intro w hw hne
  cases hf : fate_procTerminate h w with
  | erased _ _ _ hst => rw [hst] at hw; cases hw
  | reborn _ _ _ _ hst => rw [hst] at hw; cases hw
  | woken _ hst => rw [hst] at hw; cases hw
  | kept hid hst hwait =>
      rw [hst, deathbed] at hw
      split at hw
      · cases hw
      next hwi =>
      rw [hwait, deathbed, if_neg hwi] at hne ⊢
      rcases hok w hwi hw hne with hd | hwk | ⟨j, hji, hpid, hj, hnd⟩
      · exact absurd (by rw [hst, deathbed, if_neg hwi]; exact hw) (procTerminate_erases h hwi hd)
      · exact absurd (by rw [hst, deathbed, if_neg hwi]; exact hw) (procTerminate_wakes h hwi hwk)
      · refine ⟨j, ?_⟩
        cases fate_procTerminate h j with
        | erased _ hd => exact absurd hd hnd
        | reborn _ hd => exact absurd hd hnd
        | kept hid' hst' =>
            rw [deathbed, if_neg hji] at hid' hst'
            exact ⟨hid'.pid.trans hpid, by rw [Alive, hst']; exact hj⟩
        | woken hid' hst' =>
            rw [deathbed, if_neg hji] at hid'
            exact ⟨hid'.pid.trans hpid, by simp [Alive, hst']⟩

theorem noLostWait_procKillAs {actor pid : Int32} (hn : NoLostWait k)
    (hok : procCanAct k actor pid = true →
      ∀ i, procFindIndex k pid.toUInt32 = some i → TerminateNotifies k i)
    (h : procKillAs k actor pid = some k') : NoLostWait k' := by
  simp only [procKillAs] at h
  split at h
  · next ha =>
      split at h
      · cases h; exact hn
      · next i hi => exact noLostWait_procTerminate (hok ha i hi) h
  · cases h; exact hn

theorem noLostWait_procExit {code : UInt64} (hn : NoLostWait k)
    (hok : ∀ i, k.currentProc = some i → TerminateNotifies k i)
    (h : procExit k code = some k') : NoLostWait k' := by
  simp only [procExit] at h
  split at h
  · cases h; exact hn
  · next i hi =>
      obtain ⟨k₁, h₁, rfl⟩ := Option.map_eq_some_iff.mp h
      refine (noLostWait_procTerminate (hok i hi) h₁).quieter ?_
      split
      · next n _ =>
          have hd := quieter_dispatch k₁ n
          split
          · exact hd
          · split
            · exact hd.trans (.of_table rfl)
            · exact hd
      · split <;> exact .of_table rfl

/-! ### Waiting -/

/-- The slot `proc_wait_pid` finds, if the caller is to wait for it, is in use. -/
def WaitNotifies (k : Kernel) (pid : UInt32) : Prop :=
  ∀ i p, procFindIndex k pid = some i → procFindIndex k (procGetCurrentPid k).toUInt32 = some p →
    (k.procTable i).state ≠ .unused

instance (k : Kernel) (pid : UInt32) : Decidable (WaitNotifies k pid) := by
  delta WaitNotifies; infer_instance

/-- Whoever waits and is BLOCKED, other than slot `i`, waits for a live process that is not in slot
`i`. -/
def ReapNotifies (k : Kernel) (i : Slot) : Prop :=
  ∀ w, w ≠ i → (k.procTable w).state = .blocked → (k.procTable w).waitingFor ≠ 0xFFFFFFFF →
    ∃ j, j ≠ i ∧ (k.procTable j).pid = (k.procTable w).waitingFor ∧ Alive k j

instance (k : Kernel) (i : Slot) : Decidable (ReapNotifies k i) := by
  delta ReapNotifies; infer_instance

theorem noLostWait_procReap {i : Slot} (hok : ReapNotifies k i) :
    NoLostWait (procReap k i) := by
  intro w hw hne
  simp only [procReap, pcbRelease_procTable] at hw hne ⊢
  split at hw
  · cases hw
  · next hwi =>
      rw [if_neg hwi] at hne ⊢
      obtain ⟨j, hji, hpid, hj⟩ := hok w hwi hw hne
      refine ⟨j, ?_⟩
      rw [Alive, pcbRelease_procTable, if_neg hji]
      exact ⟨hpid, hj⟩

/-- Nobody waits for a zombie. -/
theorem reapNotifies_of_dead {i : Slot} (hn : NoLostWait k) (hi : ¬ Alive k i) :
    ReapNotifies k i := by
  intro w _ hw hne
  obtain ⟨j, hpid, hj⟩ := hn w hw hne
  exact ⟨j, fun e => hi (e ▸ hj), hpid, hj⟩

theorem noLostWait_procWaitPid {pid : UInt64} {frame : Registers} (hn : NoLostWait k)
    (hok : WaitNotifies k pid.toUInt32) : NoLostWait (procWaitPid k pid frame).1 := by
  simp only [procWaitPid]
  split
  · exact hn
  · next i hi =>
      split
      · next hz =>
          split
          · exact hn
          · next p hp =>
              have hlive : LivePid k pid.toUInt32 := ⟨i, procFindIndex_pid hi, hok i p hi hp, hz⟩
              have halive : ∀ q, LivePid k q → LivePid
                  (k.modify p fun r => (r.setWaitingFor pid.toUInt32).setState .blocked) q := by
                rintro q ⟨j, hpid, hj⟩
                refine ⟨j, ?_⟩
                rw [Alive, Kernel.modify_apply]
                split
                · next e => subst e; exact ⟨hpid, by simp [Pcb.setState]⟩
                · exact ⟨hpid, hj⟩
              refine NoLostWait.quieter (fun w hw hne => ?_) (quieter_procYield _ _ _)
              by_cases e : w = p
              · subst e
                have hwait : ((k.modify w fun r =>
                    (r.setWaitingFor pid.toUInt32).setState .blocked).procTable w).waitingFor =
                      pid.toUInt32 := by
                  simp [Pcb.setState, Pcb.setWaitingFor]
                rw [hwait]
                exact halive _ hlive
              · rw [Kernel.modify_other _ _ e] at hw hne ⊢
                exact halive _ (hn w hw hne)
      · next hz => exact noLostWait_procReap (reapNotifies_of_dead hn fun ha => hz ha.2)

/-! ### The machine -/

/-- The operation leaves no waiter behind: a condition on the state before it. -/
def Notifies (s : Sys) (o : Op) : Prop :=
  (∀ i, NamedBy s.proc (signals s o).blocks.toList i → Settled s.proc i) ∧
  match o with
  | .killAs actor pid => procCanAct s.proc actor pid = true →
      ∀ i, procFindIndex s.proc pid.toUInt32 = some i → TerminateNotifies s.proc i
  | .exit _ => ∀ i, s.proc.currentProc = some i → TerminateNotifies s.proc i
  | .waitPid pid _ => WaitNotifies s.proc pid.toUInt32
  | .waitPidAs actor pid _ =>
      procCanAct s.proc actor pid.toUInt32.toInt32 = true → WaitNotifies s.proc pid.toUInt32
  | .resume _ => ∀ pid, s.proc.point = .waitPid pid →
      ∀ i, procFindIndex s.proc pid = some i → ReapNotifies s.proc i
  | _ => True

/-- The descendants are read off the table. -/
theorem Descends.congr (h : k'.procTable = k.procTable) {pid : UInt32} {j : Slot} :
    Descends k' pid j ↔ Descends k pid j := by
  constructor <;> intro hd
  · exact hd.mono fun i hi => by rw [Alive, h] at hi; exact ⟨hi, by rw [h], by rw [h]⟩
  · exact hd.mono fun i hi => by rw [Alive, ← h] at hi; exact ⟨hi, by rw [h], by rw [h]⟩

theorem TerminateNotifies.congr {i : Slot} (h : TerminateNotifies k i)
    (calls : List DestroyCall) : TerminateNotifies { k with destroyCalls := calls } i := by
  intro w hwi hw hne
  have ht : ({ k with destroyCalls := calls } : Kernel).procTable = k.procTable := rfl
  have hd : ∀ j, Descends { k with destroyCalls := calls } (k.procTable i).pid j ↔
      Descends k (k.procTable i).pid j := fun j => Descends.congr ht
  rcases h w hwi hw hne with e | e | ⟨j, hji, hpid, hj, hnd⟩
  · exact .inl ((hd w).mpr e)
  · exact .inr (.inl e)
  · exact .inr (.inr ⟨j, hji, hpid, hj, fun e => hnd ((hd j).mp e)⟩)

theorem Notifies.clearCalls {s : Sys} {o : Op} (h : Notifies s o) :
    Notifies (Sys.clearCalls s) o := by
  cases o <;> try exact h
  case killAs => exact ⟨h.1, fun ha i hi => (h.2 ha i hi).congr []⟩
  case exit => exact ⟨h.1, fun i hi => (h.2 i hi).congr []⟩

theorem noLostWait_perform {s : Sys} {o : Op} (hn : NoLostWait s.proc) (hok : Notifies s o)
    (h : Performed s o k') : NoLostWait k' := by
  cases h with
  | signals => exact noLostWait_apply hn hok.1
  | creates _ _ hc => exact hn.quieter (quieter_created hc)
  | vfork frame => exact noLostWait_procVfork hn frame
  | cloneVfork frame =>
      refine (noLostWait_procVfork hn frame).quieter ⟨fun w hw => ?_, fun j hj => ?_⟩
      · rw [(sameState_setChildStack _ _ _ w).state] at hw
        exact ⟨hw, (sameState_setChildStack _ _ _ w).waitingFor⟩
      · rw [Alive, (sameState_setChildStack _ _ _ j).state]
        exact ⟨hj, (sameState_setChildStack _ _ _ j).pid⟩
  | exit hk => exact noLostWait_procExit hn hok.2 hk
  | killAs hk => exact noLostWait_procKillAs hn hok.2 hk
  | waitPid => exact noLostWait_procWaitPid hn hok.2
  | waitPidAs _ ha => exact noLostWait_procWaitPid hn (hok.2 ha)
  | refused | gone => exact hn
  | reaps _ hp hi => exact noLostWait_procReap (k := { s.proc with point := .process }) (hok.2 _ hp _ hi)
  | resumes => exact noLostWait_apply (k := { s.proc with point := .process }) hn hok.1
  | timer => exact hn.quieter (quieter_procScheduleInterrupt _ _)
  | startScheduling => exact hn.quieter (quieter_procStartScheduling _)

theorem noLostWait_step {s s' : Sys} {o : Op} (hn : NoLostWait s.proc) (hok : Notifies s o)
    (h : step s o = some s') : NoLostWait s'.proc := by
  simp only [step] at h
  split at h
  · cases h
  · exact noLostWait_perform (s := Sys.clearCalls s) hn hok.clearCalls (performed h)

theorem noLostWait_boot (users : User.UserDb) : NoLostWait (boot users).proc := by
  have h₀ : NoLostWait { users := users } := fun _ h => (by cases h)
  exact h₀.quieter (quieter_created (created_procCreateInternal _ _))

/-- **No exit notification is lost**, in every run whose operations leave no waiter behind. -/
theorem no_wait_lost (users : User.UserDb) (os : List Op)
    (h : Meets step Notifies (boot users) os) :
    Along step (fun _ _ s' => NoLostWait s'.proc) (boot users) os := by
  have hstep : ∀ s o s', NoLostWait s.proc → Notifies s o → step s o = some s' →
      NoLostWait s'.proc ∧ NoLostWait s'.proc := fun _ _ _ hI hC hs =>
    have hn := noLostWait_step hI hC hs
    ⟨hn, hn⟩
  exact along_of_inv hstep (noLostWait_boot users) h

/-- A parent waits for its child, which exits. -/
def childRun : List Op :=
  [.startScheduling, .fork {} none true, .waitPid 2 {}, .exit 5]

theorem no_wait_lost_childRun : Meets step Notifies (boot rootOnly) childRun ∧
    Along step (fun _ _ s' => NoLostWait s'.proc) (boot rootOnly) childRun := by
  have h : Meets step Notifies (boot rootOnly) childRun := by
    refine ⟨⟨by decide +kernel, trivial⟩, fun s₁ h₁ => ⟨⟨?_, trivial⟩, fun s₂ h₂ => ⟨⟨?_, ?_⟩,
      fun s₃ h₃ => ⟨⟨?_, fun i hi w hwi hw hne => .inr (.inl ?_)⟩, fun _ _ => trivial⟩⟩⟩⟩
    all_goals cases h₁
    · decide +kernel
    all_goals cases h₂
    · decide +kernel
    · decide +kernel
    all_goals cases h₃
    · decide +kernel
    · revert i w
      decide +kernel
  exact ⟨h, no_wait_lost rootOnly childRun h⟩

/-- A process waits for one that is not its child, which then exits. -/
def strangerRun : List Op :=
  [.createKernel 0x1000 0 7, .startScheduling, .waitPid 2 {}, .exit 0]

/-- Without the condition a waiter is left behind. -/
theorem stranger_not_woken :
    ¬ ∀ users os, Along step (fun _ _ s' => NoLostWait s'.proc) (boot users) os := by
  intro h
  have hrun := h rootOnly strangerRun
  revert hrun
  decide +kernel

end Blackmount.Proc
