import Blackmount.Proc.Moves

/-!
# Proc — no READY process is passed over

`find_next` looks for a READY slot from the one after the current slot on, round to the current one.  A slot that stays READY
therefore comes nearer with every switch, whatever is done between the switches, and after as many timer interrupts as there
are slots it is READY no more (`ready_leaves`).
-/

namespace Blackmount.Proc
open Blackmount.Net Blackmount.Console Blackmount.Lib

variable {k k' : Kernel} {i n : Slot} {frame : Registers}

/-- The slot that `find_next` looks at last. -/
def lastSlot (k : Kernel) : Nat :=
  match k.currentProc with
  | none => maxProcesses - 1
  | some c => c.val

/-- How many slots `find_next` looks at before slot `i`. -/
def slotsBefore (k : Kernel) (i : Slot) : Nat := (i.val + maxProcesses - (lastSlot k + 1)) % maxProcesses

theorem slotsBefore_lt (k : Kernel) (i : Slot) : slotsBefore k i < maxProcesses := Nat.mod_lt _ (by decide)

theorem slotsBefore_congr (h : k'.currentProc = k.currentProc) (i : Slot) : slotsBefore k' i = slotsBefore k i := by
  rw [slotsBefore, slotsBefore, lastSlot, lastSlot, h]

theorem lastSlot_lt (k : Kernel) : lastSlot k < 64 := by
  rw [lastSlot]
  split
  · decide
  · next c _ => exact c.isLt

theorem slotAfter_val (k : Kernel) (d : Nat) : (slotAfter k.currentProc d).val = (lastSlot k + 1 + d) % 64 := by
  simp only [slotAfter, lastSlot, maxProcesses]
  cases k.currentProc with
  | none => dsimp only; omega
  | some c => rfl

theorem slotsBefore_slotAfter {d : Nat} (hd : d < maxProcesses) : slotsBefore k (slotAfter k.currentProc d) = d := by
  have := lastSlot_lt k
  simp only [slotsBefore, slotAfter_val, maxProcesses] at hd ⊢
  omega

theorem slotAfter_slotsBefore (k : Kernel) (i : Slot) : slotAfter k.currentProc (slotsBefore k i) = i := by
  have hi : i.val < 64 := i.isLt
  have := lastSlot_lt k
  ext
  simp only [slotsBefore, slotAfter_val, maxProcesses]
  omega

/-- `find_next` finds the first READY slot in its order. -/
theorem findNext_first (h : findNext k = some n) (hi : (k.procTable i).state = .ready) :
    slotsBefore k n ≤ slotsBefore k i := by
  obtain ⟨l₁, d, l₂, hl, hd, hnone⟩ := List.findSome?_eq_some_iff.mp h
  have hdlt : d < maxProcesses := List.mem_range.mp (hl ▸ List.mem_append_right _ List.mem_cons_self)
  have hmem : slotsBefore k i ∈ l₁ ++ d :: l₂ := hl ▸ List.mem_range.mpr (slotsBefore_lt k i)
  have hsorted : (l₁ ++ d :: l₂).Pairwise (· < ·) := hl ▸ List.pairwise_lt_range
  simp only at hd
  split at hd
  · cases hd
    rw [slotsBefore_slotAfter hdlt]
    rcases List.mem_append.mp hmem with hin | hin
    · -- it is READY, so it would have been found
      have := hnone _ hin
      simp [slotAfter_slotsBefore, hi] at this
    · rcases List.mem_cons.mp hin with e | hin
      · exact Nat.le_of_eq e.symm
      · exact Nat.le_of_lt ((List.pairwise_cons.mp (List.pairwise_append.mp hsorted).2.1).1 _ hin)
  · cases hd

/-- A switch to another slot brings a READY one nearer. -/
theorem slotsBefore_dispatch (h : findNext k = some n) (hi : ((dispatch k n).procTable i).state = .ready) :
    slotsBefore (dispatch k n) i < slotsBefore k i := by
  rw [dispatch_procTable] at hi
  split at hi
  · cases hi
  next hne =>
  have hle := findNext_first h hi
  have hin : i.val ≠ n.val := fun e => hne (Fin.ext e)
  have hi64 : i.val < 64 := i.isLt
  have hn64 : n.val < 64 := n.isLt
  have hlast := lastSlot_lt k
  have hlast' : lastSlot (dispatch k n) = n.val := rfl
  simp only [slotsBefore, hlast', maxProcesses] at hle ⊢
  omega

theorem findNext_none (h : findNext k = none) (i : Slot) : (k.procTable i).state ≠ .ready := by
  intro hi
  obtain ⟨n, hsome⟩ := findNext_isSome hi
  rw [h] at hsome
  cases hsome

/-- A timer interrupt that leaves a slot READY has switched to another. -/
theorem slotsBefore_timer (he : k.schedulingEnabled = true) (hi : ((procScheduleInterrupt k frame).procTable i).state = .ready) :
    slotsBefore (procScheduleInterrupt k frame) i < slotsBefore k i := by
  rw [procScheduleInterrupt_eq, if_pos he] at hi ⊢
  rw [← slotsBefore_congr (sameControl_saved k frame).current i]
  split at hi
  · next hnone => exact absurd hi (findNext_none hnone i)
  · next hn => exact slotsBefore_dispatch hn hi

/-- Slot `i`, if it is READY at the end, is not farther from its turn. -/
structure Nearer (i : Slot) (k k' : Kernel) : Prop where
  enabled : k'.schedulingEnabled = k.schedulingEnabled
  before : (k'.procTable i).state = .ready → slotsBefore k' i ≤ slotsBefore k i

namespace Nearer

theorem of_current (he : k'.schedulingEnabled = k.schedulingEnabled) (hc : k'.currentProc = k.currentProc) : Nearer i k k' :=
  ⟨he, fun _ => Nat.le_of_eq (slotsBefore_congr hc i)⟩

theorem of_same (h : SameControl k k') : Nearer i k k' := of_current h.enabled h.current

theorem trans {m : Kernel} (hc : SameControl k m) (h : Nearer i m k') : Nearer i k k' :=
  ⟨h.enabled.trans hc.enabled, fun hi => (h.before hi).trans (Nat.le_of_eq (slotsBefore_congr hc.current i))⟩

/-- Where in the kernel the process is does not matter. -/
theorem atPoint {point : KernelPoint} (h : Nearer i { k with point := point } k') : Nearer i k k' := ⟨h.enabled, h.before⟩

end Nearer

theorem nearer_dispatch (h : findNext k = some n) : Nearer i k (dispatch k n) :=
  ⟨rfl, fun hi => Nat.le_of_lt (slotsBefore_dispatch h hi)⟩

theorem nearer_procScheduleInterrupt (k : Kernel) (frame : Registers) : Nearer i k (procScheduleInterrupt k frame) := by
  rw [procScheduleInterrupt_eq]
  split
  · refine .trans (sameControl_saved k frame) ?_
    split
    · exact .of_same (.refl _)
    · next hn => exact nearer_dispatch hn
  · exact .of_same (.refl k)

theorem nearer_procYield (k : Kernel) (point : KernelPoint) (frame : Registers) : Nearer i k (procYield k point frame) := by
  simp only [procYield]
  split
  · exact (nearer_procScheduleInterrupt _ frame).atPoint
  · exact .of_current rfl rfl

theorem nearer_apply (σ : Signals) (k : Kernel) : Nearer i k (σ.apply k) := by
  refine .trans (σ.sameControl_touch k) ?_
  show Nearer i (σ.touch k) (procYield? (σ.touch k) σ.yields)
  cases σ.yields with
  | none => exact .of_same (.refl _)
  | some y => exact nearer_procYield _ y.1 y.2

theorem nearer_procExit {code : UInt64} (h : procExit k code = some k') : Nearer i k k' := by
  simp only [procExit] at h
  split at h
  · cases h
    exact .of_current rfl rfl
  · obtain ⟨k₁, hterm, rfl⟩ := Option.map_eq_some_iff.mp h
    refine .trans (sameControl_procTerminate hterm) ?_
    split
    · next n hn =>
        -- a space that is destroyed as well changes neither the table nor who runs
        have hd := nearer_dispatch (i := i) hn
        split
        · exact hd
        · split
          · exact ⟨hd.enabled, hd.before⟩
          · exact hd
    · next hnone => split <;> exact ⟨rfl, fun hi => absurd hi (findNext_none hnone i)⟩

theorem nearer_procWaitPid (k : Kernel) (pid : UInt64) (frame : Registers) : Nearer i k (procWaitPid k pid frame).1 := by
  simp only [procWaitPid]
  split
  · exact .of_same (.refl k)
  · split
    · split
      · exact .of_same (.refl k)
      · exact .trans (m := k.modify _ _) ⟨rfl, rfl, rfl, rfl⟩ (nearer_procYield _ _ frame)
    · exact .of_same (sameControl_pcbRelease k _)

theorem procVfork_goesOn (k : Kernel) (frame : Registers) :
    (procVfork k frame).1.schedulingEnabled = k.schedulingEnabled ∧ (procVfork k frame).1.currentProc = k.currentProc := by
  rcases procVfork_cases k frame with e | ⟨parent, slot, k₁, -, -, hborn, -, -, e⟩
  · rw [e]
    exact ⟨rfl, rfl⟩
  · rw [e]
    exact ⟨hborn.enabled, hborn.current⟩

theorem nearer_performed {s : Sys} {o : Op} (h : Performed s o k') (ho : o ≠ .startScheduling) : Nearer i s.proc k' := by
  cases h with
  | signals _ => exact nearer_apply _ _
  | creates _ _ hc => exact .of_current hc.enabled hc.current
  | vfork frame => exact .of_current (procVfork_goesOn _ frame).1 (procVfork_goesOn _ frame).2
  | cloneVfork frame childStack page cloned _ =>
      obtain ⟨he, hc⟩ := procVfork_goesOn s.proc frame
      have hset := sameControl_setChildStack (procVfork s.proc frame).1 (procVfork s.proc frame).2 childStack
      exact .of_current (hset.enabled.trans he) (hset.current.trans hc)
  | exit hexit => exact nearer_procExit hexit
  | @killAs actor pid _ hkill =>
      simp only [procKillAs] at hkill
      split at hkill
      · split at hkill
        · cases hkill
          exact .of_same (.refl _)
        · exact .of_same (sameControl_procTerminate hkill)
      · cases hkill
        exact .of_same (.refl _)
  | waitPid pid frame => exact nearer_procWaitPid _ pid frame
  | waitPidAs frame _ => exact nearer_procWaitPid _ _ frame
  | refused actor pid frame => exact .of_same (.refl _)
  | gone frame => exact .of_current rfl rfl
  | reaps frame _ _ => exact (Nearer.of_same (sameControl_pcbRelease _ _)).atPoint
  | resumes frame => exact (nearer_apply _ _).atPoint
  | timer frame => exact nearer_procScheduleInterrupt _ frame
  | startScheduling => exact absurd rfl ho

def Op.isTimer : Op → Bool
  | .timer _ => true
  | _ => false

/-- **No starvation.**  Once scheduling has started, a READY slot is READY no more, in some state that the run passes through,
when the timer has interrupted as often as there are slots: it was switched to, or blocked or ended. -/
theorem ready_leaves {s s' : Sys} {os : List Op} (he : s.proc.schedulingEnabled = true) (hstart : .startScheduling ∉ os)
    (hrun : run step s os = some s') (hmany : maxProcesses ≤ os.countP Op.isTimer) :
    ∃ pre s₁, pre <+: os ∧ run step s pre = some s₁ ∧ (s₁.proc.procTable i).state ≠ .ready := by
  by_contra hno
  have hready : ∀ pre s₁, pre <+: os → run step s pre = some s₁ → (s₁.proc.procTable i).state = .ready :=
    fun pre s₁ hpre hr => by_contra fun hne => hno ⟨pre, s₁, hpre, hr, hne⟩
  have hmeets : Meets step (fun s o => o ≠ .startScheduling ∧
      ∀ s', step s o = some s' → (s'.proc.procTable i).state = .ready) s os := by
    refine meets_iff.mpr fun pre o s₁ hpre hr => ⟨fun e => hstart ?_, fun s₂ hs => hready _ _ hpre ?_⟩
    · exact e ▸ hpre.subset (List.mem_append_right _ (List.mem_singleton_self _))
    · rw [run_append, hr, Option.bind_some, run, hs]
      rfl
  -- as long as the slot is READY, its turn comes nearer, and it cannot come nearer as often as that
  have hcount := countP_le_of_variant (v := fun s : Sys => slotsBefore s.proc i) (p := Op.isTimer)
    (I := fun s : Sys => s.proc.schedulingEnabled = true) (fun s o s' hI hC hs => ?_) he hmeets hrun
  · have := slotsBefore_lt s.proc i
    omega
  · have hi := hC.2 s' hs
    simp only [step] at hs
    split at hs
    · cases hs
    have hnear : Nearer i (Sys.clearCalls s).proc s'.proc := nearer_performed (performed hs) hC.1
    refine ⟨hnear.enabled.trans hI, ?_⟩
    cases o with
    | timer frame =>
        cases hs
        exact slotsBefore_timer (k := (Sys.clearCalls s).proc) hI hi
    | _ => exact hnear.before hi

/-- The second process is READY when scheduling starts. -/
theorem ready_leaves_second : ∃ s, run step (boot rootOnly) [.createKernel 0x1000 0 7, .startScheduling] = some s ∧
    (s.proc.procTable ⟨1, by decide⟩).state = .ready ∧
      ∃ pre s₁, pre <+: List.replicate maxProcesses (.timer {}) ∧ run step s pre = some s₁ ∧
        (s₁.proc.procTable ⟨1, by decide⟩).state ≠ .ready := by
  have hdefined (s : Sys) : ∃ s', run step s (List.replicate maxProcesses (.timer {})) = some s' :=
    @run_defined _ _ step (fun _ => True) (fun _ o => o = .timer {}) (fun s o _ ho => by subst ho; exact ⟨_, rfl, trivial⟩) _ s
      trivial (meets_of_forall fun o ho => List.eq_of_mem_replicate ho)
  refine ⟨_, rfl, by decide +kernel, ?_⟩
  obtain ⟨s', hrun⟩ := hdefined _
  refine ready_leaves (by decide +kernel) (fun h => ?_) hrun (Nat.le_of_eq (by decide +kernel))
  cases List.eq_of_mem_replicate h

end Blackmount.Proc
