import Blackmount.Proc.Dead

/-!
# Proc — who owns an address space

Control blocks share address spaces by raw pointers, and four places destroy them: `proc_exit`,
its halt path, `proc_reap` and `proc_kill_children`.  A call of `vmm_destroy_address_space` is
*proper* when the space was still allocated, was not the one loaded in CR3, and no slot in use
points to it once the operation is over.

`Owned` is the invariant: an unused slot holds no space, and every space a slot or CR3 holds is
allocated.  `SpaceOk s o` says of an operation, in the state before it, that the slots it erases
own their spaces alone, that an exiting process holds none it would destroy, and that a new image
gets a PID that is not negative as an `int`.  In a run whose operations all meet it every call is
proper (`spaces_destroyed_properly`).
-/

namespace Blackmount.Proc
open Blackmount.Net Blackmount.Console Blackmount.Lib

/-! ### The property and the invariant -/

/-- Every call of `vmm_destroy_address_space` the operation made was on an allocated space that was
not loaded, and no slot in use points to the space now. -/
def ProperCalls (k : Kernel) : Prop :=
  ∀ c ∈ k.destroyCalls, c.live = true ∧ c.loaded = false ∧
    ∀ i : Slot, (k.procTable i).state ≠ .unused → (k.procTable i).addressSpace ≠ some c.space

instance (k : Kernel) : Decidable (ProperCalls k) := by
  delta ProperCalls; infer_instance

structure Owned (k : Kernel) : Prop where
  unused : ∀ i, (k.procTable i).state = .unused → (k.procTable i).addressSpace = none
  held : ∀ i a, (k.procTable i).addressSpace = some a → k.spaces a = true
  loaded : ∀ a, k.cr3 = some a → k.spaces a = true

/-- The invariant inside an operation: the spaces destroyed so far were, and are gone. -/
structure Sound (k : Kernel) : Prop extends Owned k where
  calls : ∀ c ∈ k.destroyCalls, c.live = true ∧ c.loaded = false ∧ k.spaces c.space = false

variable {k k' : Kernel}

theorem Sound.properCalls (h : Sound k) : ProperCalls k := fun c hc => by
  obtain ⟨hl, hn, hg⟩ := h.calls c hc
  refine ⟨hl, hn, fun i _ ha => ?_⟩
  rw [h.held i _ ha] at hg
  cases hg

/-- Slots lose spaces but gain none, none becomes unused, and CR3 is loaded from a slot. -/
structure Still (k k' : Kernel) : Prop where
  held : ∀ i a, (k'.procTable i).addressSpace = some a → (k.procTable i).addressSpace = some a
  unused : ∀ i, (k'.procTable i).state = .unused → (k.procTable i).state = .unused
  cr3 : ∀ a, k'.cr3 = some a → k.cr3 = some a ∨ ∃ i, (k.procTable i).addressSpace = some a
  spaces : k'.spaces = k.spaces
  calls : k'.destroyCalls = k.destroyCalls

variable {i j : Slot}

namespace Still

theorem refl (k : Kernel) : Still k k :=
  ⟨fun _ _ h => h, fun _ h => h, fun _ h => .inl h, rfl, rfl⟩

theorem trans {a b c : Kernel} (h₁ : Still a b) (h₂ : Still b c) : Still a c where
  held i x h := h₁.held i x (h₂.held i x h)
  unused i h := h₁.unused i (h₂.unused i h)
  cr3 x h := by
    rcases h₂.cr3 x h with hb | ⟨i, hi⟩
    · exact h₁.cr3 x hb
    · exact .inr ⟨i, h₁.held i x hi⟩
  spaces := h₂.spaces.trans h₁.spaces
  calls := h₂.calls.trans h₁.calls

theorem modify {f : Pcb → Pcb}
    (hheld : ∀ p a, (f p).addressSpace = some a → p.addressSpace = some a)
    (hunused : ∀ p, (f p).state = .unused → p.state = .unused) : Still k (k.modify i f) where
  held j a h := by
    rw [Kernel.modify_apply] at h
    split at h
    · next hj => subst hj; exact hheld _ a h
    · exact h
  unused j h := by
    rw [Kernel.modify_apply] at h
    split at h
    · next hj => subst hj; exact hunused _ h
    · exact h
  cr3 _ h := .inl h
  spaces := rfl
  calls := rfl

end Still

theorem Sound.still (hs : Sound k) (h : Still k k') : Sound k' where
  unused i hu := by
    have hn := hs.unused i (h.unused i hu)
    cases ha : (k'.procTable i).addressSpace with
    | none => rfl
    | some a => rw [h.held i a ha] at hn; cases hn
  held i a ha := by rw [h.spaces]; exact hs.held i a (h.held i a ha)
  loaded a ha := by
    rw [h.spaces]
    rcases h.cr3 a ha with hl | ⟨i, hi⟩
    · exact hs.loaded a hl
    · exact hs.held i a hi
  calls c hc := by
    rw [h.calls] at hc
    rw [h.spaces]
    exact hs.calls c hc

/-! ### Blocking, waking, scheduling -/

theorem still_procBlock (k : Kernel) (pid : Int32) : Still k (procBlock k pid) := by
  unfold procBlock
  split
  · exact .refl k
  · exact .modify (fun _ _ h => h) (fun _ h => by cases h)

theorem still_procUnblock (k : Kernel) (pid : Int32) : Still k (procUnblock k pid) := by
  unfold procUnblock
  split
  · exact .refl k
  · exact .modify (fun _ _ h => h) (fun _ h => by cases h)

theorem still_dispatch (k : Kernel) (next : Slot) : Still k (dispatch k next) := by
  have hm : Still k (k.modify next fun p => p.setState .running) :=
    .modify (fun _ _ h => h) (fun _ h => by cases h)
  have hsp : ((k.modify next fun p => p.setState .running).procTable next).addressSpace =
      (k.procTable next).addressSpace := by simp [Pcb.setState]
  exact ⟨hm.held, hm.unused, fun a h => .inr ⟨next, hsp.symm.trans h⟩, rfl, rfl⟩

theorem Still.dispatchNext {k k₁ : Kernel} (h : Still k k₁) :
    Still k (match findNext k₁ with
      | none => k₁
      | some next => dispatch k₁ next) := by
  split
  · exact h
  · exact h.trans (still_dispatch _ _)

theorem still_procScheduleInterrupt (k : Kernel) (frame : Registers) :
    Still k (procScheduleInterrupt k frame) := by
  unfold procScheduleInterrupt
  split
  · refine Still.dispatchNext ?_
    split
    · exact .refl k
    · split
      · exact .refl k
      · refine .modify (fun _ _ h => h) fun p h => ?_
        simp only [Pcb.preempt] at h
        split at h
        · cases h
        · exact h
  · exact .refl k

theorem still_procYield (k : Kernel) (point : KernelPoint) (frame : Registers) :
    Still k (procYield k point frame) := by
  have hpoint : Still k { k with point := point } :=
    ⟨fun _ _ h => h, fun _ h => h, fun _ h => .inl h, rfl, rfl⟩
  unfold procYield
  simp only
  split
  · exact hpoint.trans (still_procScheduleInterrupt _ _)
  · exact hpoint

theorem still_procStartScheduling (k : Kernel) : Still k (procStartScheduling k) := by
  have hon : Still k { k with schedulingEnabled := true } :=
    ⟨fun _ _ h => h, fun _ h => h, fun _ h => .inl h, rfl, rfl⟩
  unfold procStartScheduling
  simp only
  split
  · exact hon.trans (still_dispatch _ _)
  · split
    · next i _ =>
        have hcur : Still k { k with schedulingEnabled := true, currentProc := some i } :=
          ⟨fun _ _ h => h, fun _ h => h, fun _ h => .inl h, rfl, rfl⟩
        exact hcur.trans (.modify (fun _ _ h => h) (fun _ h => by cases h))
    · exact hon

theorem Calls.still {P : Kernel → UInt32 → Prop} (h : Calls P k k') : Still k k' := by
  induction h with
  | refl => exact .refl k
  | block _ _ ih => exact ih.trans (still_procBlock _ _)
  | unblock _ _ ih => exact ih.trans (still_procUnblock _ _)
  | yield _ ih => exact ih.trans (still_procYield _ _ _)

/-! ### Destroying a space, erasing a slot -/

theorem Sound.destroy {a : Nat} (h : Sound k) (hlive : k.spaces a = true)
    (hcr3 : k.cr3 ≠ some a) (hheld : ∀ i, (k.procTable i).addressSpace ≠ some a) :
    Sound (vmmDestroyAddressSpace k a) where
  unused := h.unused
  held i b hb := by
    have hne : b ≠ a := fun e => hheld i (e ▸ hb)
    simp only [vmmDestroyAddressSpace, Function.update_of_ne hne]
    exact h.held i b hb
  loaded b hb := by
    have hne : b ≠ a := fun e => hcr3 (e ▸ hb)
    simp only [vmmDestroyAddressSpace, Function.update_of_ne hne]
    exact h.loaded b hb
  calls c hc := by
    simp only [vmmDestroyAddressSpace, List.mem_append, List.mem_singleton] at hc ⊢
    rcases hc with hc | rfl
    · obtain ⟨hl, hn, hg⟩ := h.calls c hc
      refine ⟨hl, hn, ?_⟩
      by_cases e : c.space = a
      · rw [e]; simp
      · rw [Function.update_of_ne e]; exact hg
    · exact ⟨hlive, by simpa using hcr3, by simp⟩

/-- Slot `j` alone holds its space, and it is not loaded. -/
def Exclusive (k : Kernel) (j : Slot) : Prop :=
  ∀ a, (k.procTable j).addressSpace = some a →
    k.cr3 ≠ some a ∧ ∀ i, i ≠ j → (k.procTable i).addressSpace ≠ some a

instance (k : Kernel) (j : Slot) : Decidable (Exclusive k j) :=
  match h : (k.procTable j).addressSpace with
  | none => isTrue fun _ ha => by rw [h] at ha; cases ha
  | some a => decidable_of_iff (k.cr3 ≠ some a ∧ ∀ i, i ≠ j → (k.procTable i).addressSpace ≠ some a)
      ⟨fun hx b hb => by rw [h] at hb; cases hb; exact hx, fun hx => hx a h⟩

/-- A slot is rewritten: if it becomes unused it holds no space, and what it holds is allocated. -/
theorem Sound.modify {f : Pcb → Pcb} (h : Sound k)
    (hu : (f (k.procTable i)).state = .unused → (f (k.procTable i)).addressSpace = none)
    (hh : ∀ a, (f (k.procTable i)).addressSpace = some a → k.spaces a = true) :
    Sound (k.modify i f) where
  unused j hj := by
    rw [Kernel.modify_apply] at hj ⊢
    split at hj
    · next e => rw [if_pos e]; exact hu hj
    · next e => rw [if_neg e]; exact h.unused j hj
  held j a ha := by
    rw [Kernel.modify_apply] at ha
    split at ha
    · exact hh a ha
    · exact h.held j a ha
  loaded := h.loaded
  calls := h.calls

theorem Sound.release (h : Sound k) (hx : Exclusive k j) :
    Sound (pcbRelease k j) := by
  have hclear : Sound (k.modify j Pcb.clearHead) :=
    h.modify (fun _ => rfl) fun _ ha => by cases ha
  unfold pcbRelease
  cases ha : (k.procTable j).addressSpace with
  | none => exact hclear
  | some a =>
      -- the two writes commute: clear the slot first, then nothing points to the space
      refine hclear.destroy (a := a) (h.held j a ha) (hx a ha).1 fun i => ?_
      rw [Kernel.modify_apply]
      split
      · simp [Pcb.clearHead]
      · next hi => exact (hx a ha).2 i hi

/-! ### Termination -/

/-- Slot `j` is alive and comes below `pid` in the tree of alive slots. -/
inductive Descends (k : Kernel) (pid : UInt32) : Slot → Prop
  | child {j : Slot} (hj : Alive k j) (hp : (k.procTable j).ppid = pid) : Descends k pid j
  | under {m j : Slot} (hm : Descends k pid m) (hj : Alive k j)
      (hp : (k.procTable j).ppid = (k.procTable m).pid) : Descends k pid j

variable {pid : UInt32}

namespace Descends

theorem alive (h : Descends k pid j) : Alive k j := by
  cases h with
  | child hj _ => exact hj
  | under _ hj _ => exact hj

theorem trans {m j : Slot} (hm : Descends k pid m)
    (h : Descends k (k.procTable m).pid j) : Descends k pid j := by
  induction h with
  | child hj hp => exact .under hm hj hp
  | under _ hj hp ih => exact .under ih hj hp

/-- Fewer alive slots, fewer descendants. -/
theorem mono
    (hk : ∀ i, Alive k' i → Alive k i ∧ (k.procTable i).ppid = (k'.procTable i).ppid ∧
      (k.procTable i).pid = (k'.procTable i).pid)
    (h : Descends k' pid j) : Descends k pid j := by
  induction h with
  | child hj hp => exact .child (hk _ hj).1 ((hk _ hj).2.1.trans hp)
  | under hm hj hp ih =>
      refine .under ih (hk _ hj).1 ?_
      rw [(hk _ hj).2.1, hp, (hk _ hm.alive).2.2]

theorem none_of_childless
    (hno : ∀ i, Alive k i → (k.procTable i).ppid ≠ pid) : ¬ Descends k pid j := by
  intro h
  induction h with
  | child hj hp => exact hno _ hj hp
  | under _ _ _ ih => exact ih

end Descends

/-- Some slots below `pid` were erased; the others, CR3 and the running slot are as they were. -/
structure Eroded (k : Kernel) (pid : UInt32) (k' : Kernel) : Prop where
  slot : ∀ i, k'.procTable i = k.procTable i ∨
    Descends k pid i ∧ k'.procTable i = (k.procTable i).clearHead
  cr3 : k'.cr3 = k.cr3
  current : k'.currentProc = k.currentProc

namespace Eroded

theorem refl (k : Kernel) (pid : UInt32) : Eroded k pid k := ⟨fun _ => .inl rfl, rfl, rfl⟩

theorem of_alive (h : Eroded k pid k')
    (hi : Alive k' i) : k'.procTable i = k.procTable i :=
  (h.slot i).resolve_right fun e => not_alive_clearHead e.2 hi

theorem descends {pid pid' : UInt32} (h : Eroded k pid k')
    (hj : Descends k' pid' j) : Descends k pid' j := by
  refine hj.mono fun i hi => ?_
  have e := h.of_alive hi
  exact ⟨by simpa [Alive, e] using hi, by rw [e], by rw [e]⟩

theorem exclusive (h : Eroded k pid k')
    (hj : k'.procTable j = k.procTable j) (hx : Exclusive k j) : Exclusive k' j := by
  intro a ha
  rw [hj] at ha
  refine ⟨h.cr3 ▸ (hx a ha).1, fun i hi => ?_⟩
  rcases h.slot i with e | ⟨-, e⟩
  · rw [e]; exact (hx a ha).2 i hi
  · rw [e]; simp [Pcb.clearHead]

/-- Erasing below a slot that is itself below `pid`, then the slot. -/
theorem release {k k₁ k₂ : Kernel} (h₁ : Eroded k pid k₁)
    (hi : Descends k pid i) (h₂ : Eroded k₁ (k₁.procTable i).pid k₂)
    (hsame : k₁.procTable i = k.procTable i) : Eroded k pid (pcbRelease k₂ i) where
  slot j := by
    have hj : k₂.procTable j = k.procTable j ∨
        Descends k pid j ∧ k₂.procTable j = (k.procTable j).clearHead := by
      rcases h₂.slot j with e | ⟨hd, e⟩
      · rw [e]; exact h₁.slot j
      · have hd' := hi.trans (by rw [← hsame]; exact h₁.descends hd)
        exact .inr ⟨hd', by rw [e, h₁.of_alive hd.alive]⟩
    rw [pcbRelease_procTable]
    split
    · next e =>
        subst e
        refine .inr ⟨hi, ?_⟩
        rcases hj with e | ⟨-, e⟩
        · rw [e]
        · rw [e]; rfl
    · exact hj
  cr3 := by
    have hr : (pcbRelease k₂ i).cr3 = k₂.cr3 := by
      unfold pcbRelease; simp only; split <;> rfl
    rw [hr, h₂.cr3, h₁.cr3]
  current := by
    have hr : (pcbRelease k₂ i).currentProc = k₂.currentProc := by
      unfold pcbRelease; simp only; split <;> rfl
    rw [hr, h₂.current, h₁.current]

end Eroded

/-- **Recursive kill.**  When every slot below `pid` owns its space alone, `proc_kill_children`
destroys each of these spaces once. -/
theorem sound_procKillChildren : ∀ {fuel : Nat} {k k' : Kernel} {pid : UInt32},
    procKillChildren fuel k pid = some k' → (∀ j, Descends k pid j → Exclusive k j) → Sound k →
      Sound k' ∧ Eroded k pid k'
  | 0, _, _, _, h, _, _ => by cases h
  | fuel + 1, k, k', pid, h, hx, hs => by
      -- carried along the loop: what is erased so far, and soundness
      have hloop : ∀ s i s', (if (s.procTable i).state = .unused ∨ (s.procTable i).state = .zombie
          then some s else if (s.procTable i).ppid ≠ pid then some s
          else (procKillChildren fuel s (s.procTable i).pid).map fun s => pcbRelease s i) = some s' →
          (Sound s ∧ Eroded k pid s → Sound s' ∧ Eroded k pid s') := by
        intro s i s' hb ⟨hss, he⟩
        split at hb
        · cases hb; exact ⟨hss, he⟩
        · next hd =>
            split at hb
            · cases hb; exact ⟨hss, he⟩
            · next hp =>
                obtain ⟨s₂, h₂, rfl⟩ := Option.map_eq_some_iff.mp hb
                have hi : Alive s i := not_or.mp hd
                have hsame := he.of_alive hi
                have hik : Descends k pid i :=
                  .child (by simpa [Alive, hsame] using hi) (by rw [← hsame]; exact not_not.mp hp)
                have hbelow : ∀ j, Descends s (s.procTable i).pid j → Exclusive s j := fun j hj =>
                  he.exclusive (he.of_alive hj.alive)
                    (hx j (hik.trans (by rw [← hsame]; exact he.descends hj)))
                obtain ⟨hs₂, he₂⟩ := sound_procKillChildren h₂ hbelow hss
                refine ⟨hs₂.release ?_, he.release hik he₂ hsame⟩
                rcases he₂.slot i with e | ⟨-, e⟩
                · exact he₂.exclusive e (he.exclusive hsame (hx i hik))
                · intro a ha; rw [e] at ha; cases ha
      exact foldlM_rel (R := fun s s' => Sound s ∧ Eroded k pid s → Sound s' ∧ Eroded k pid s')
        (fun _ h => h) (fun h₁ h₂ h => h₂ (h₁ h)) hloop h ⟨hs, .refl k pid⟩

theorem still_wakeBlocked (k : Kernel) (v : Slot) : Still k (wakeBlocked k v) := by
  unfold wakeBlocked
  split
  · exact .modify (fun _ _ h => h) (fun _ h => by cases h)
  · exact .refl k

theorem still_wakeVforkParent (k : Kernel) (i : Slot) : Still k (wakeVforkParent k i) := by
  have hleave : ∀ k₁, Still k k₁ → Still k (k₁.modify i Pcb.leaveVfork) := fun k₁ h₁ =>
    h₁.trans (.modify (fun _ _ h => by cases h) (fun _ h => h))
  unfold wakeVforkParent
  simp only
  split
  · split
    · exact hleave k (.refl k)
    · exact hleave _ (still_wakeBlocked _ _)
  · exact .refl k

/-- A vfork child that dies gives the space it shares back. -/
theorem wakeVforkParent_gives (h : (k.procTable i).vforkParent > 0) :
    ((wakeVforkParent k i).procTable i).addressSpace = none := by
  unfold wakeVforkParent
  simp only
  rw [if_pos h]
  simp [Pcb.leaveVfork]

theorem still_wakeWaitingParent (k : Kernel) (i : Slot) (pid : UInt32) :
    Still k (wakeWaitingParent k i pid) := by
  unfold wakeWaitingParent
  split
  · exact .refl k
  · split
    · next q _ _ =>
        have hm : Still k (k.modify q fun p => p.setWaitingFor 0xFFFFFFFF) :=
          .modify (fun _ _ h => h) (fun _ h => h)
        exact hm.trans (still_procUnblock _ _)
    · exact .refl k

/-- The slots below the one terminated own their spaces alone. -/
def TerminateOwned (k : Kernel) (i : Slot) : Prop :=
  ∀ j, j ≠ i → Descends k (k.procTable i).pid j → Exclusive k j

theorem sound_procTerminate {code : UInt64} (hs : Sound k)
    (hx : TerminateOwned k i) (h : procTerminate k i code = some k') :
    Sound k' ∧
      (∀ a, (k'.procTable i).addressSpace = some a →
        (k.procTable i).addressSpace = some a ∧ ¬ (k.procTable i).vforkParent > 0) := by
  unfold procTerminate at h
  obtain ⟨k₂, h₂, rfl⟩ := Option.map_eq_some_iff.mp h
  set k₁ := k.modify i fun p => p.die code.toUInt32 with hk₁
  have hdie : Still k k₁ := .modify (fun _ _ h => h) (fun _ h => by cases h)
  have hi₁ : k₁.procTable i = (k.procTable i).die code.toUInt32 := by simp [hk₁]
  have hnot : ¬ Alive k₁ i := fun ha => ha.2 (by rw [hi₁]; rfl)
  have hsame : ∀ j, j ≠ i → k₁.procTable j = k.procTable j := fun j hj => Kernel.modify_other k _ hj
  have hdesc : ∀ j, Descends k₁ (k.procTable i).pid j → j ≠ i ∧ Descends k (k.procTable i).pid j := by
    refine fun j hj => ⟨fun e => hnot (e ▸ hj.alive), hj.mono fun m hm => ?_⟩
    have hmi : m ≠ i := fun e => hnot (e ▸ hm)
    rw [Alive, hsame m hmi] at hm
    exact ⟨hm, by rw [hsame m hmi], by rw [hsame m hmi]⟩
  have hx₁ : ∀ j, Descends k₁ (k.procTable i).pid j → Exclusive k₁ j := by
    intro j hj a ha
    obtain ⟨hji, hd⟩ := hdesc j hj
    rw [hsame j hji] at ha
    obtain ⟨hcr3, hother⟩ := hx j hji hd a ha
    exact ⟨hcr3, fun m hm hma => hother m hm (hdie.held m a hma)⟩
  obtain ⟨hs₂, he₂⟩ := sound_procKillChildren h₂ hx₁ (hs.still hdie)
  have hi₂ : k₂.procTable i = (k.procTable i).die code.toUInt32 :=
    ((he₂.slot i).resolve_right fun e => hnot e.1.alive).trans hi₁
  have hv := still_wakeVforkParent k₂ i
  have hw := still_wakeWaitingParent (wakeVforkParent k₂ i) i (k.procTable i).pid
  refine ⟨hs₂.still (hv.trans hw), fun a ha => ?_⟩
  have ha₃ := hw.held i a ha
  have ha₂ := hv.held i a ha₃
  rw [hi₂] at ha₂
  refine ⟨ha₂, fun hvf => ?_⟩
  have hnone := wakeVforkParent_gives (k := k₂) (i := i) (by rw [hi₂]; exact hvf)
  rw [hnone] at ha₃
  cases ha₃

theorem sound_procKillAs {actor pid : Int32} (hs : Sound k)
    (hx : procCanAct k actor pid = true →
      ∀ i, procFindIndex k pid.toUInt32 = some i → TerminateOwned k i)
    (h : procKillAs k actor pid = some k') : Sound k' := by
  unfold procKillAs at h
  split at h
  · next ha =>
      split at h
      · cases h; exact hs
      · next i hi => exact (sound_procTerminate hs (hx ha i hi) h).1
  · cases h; exact hs

/-- Process `i` may exit: it has no space of its own to destroy, or the next process to run shares
it. -/
def ExitOwned (k : Kernel) (i : Slot) (code : UInt64) : Prop :=
  (k.procTable i).addressSpace = none ∨ (k.procTable i).vforkParent > 0 ∨
    ∀ k₁, procTerminate k i code = some k₁ →
      ∃ n, findNext k₁ = some n ∧ (k₁.procTable n).addressSpace = (k.procTable i).addressSpace

theorem sound_procExit {code : UInt64} (hs : Sound k)
    (hx : ∀ i, k.currentProc = some i → TerminateOwned k i ∧ ExitOwned k i code)
    (h : procExit k code = some k') : Sound k' := by
  unfold procExit at h
  split at h
  · cases h; exact ⟨⟨hs.unused, hs.held, hs.loaded⟩, hs.calls⟩
  · next i hi =>
      obtain ⟨k₁, h₁, rfl⟩ := Option.map_eq_some_iff.mp h
      obtain ⟨hown, hexit⟩ := hx i hi
      obtain ⟨hs₁, hsp⟩ := sound_procTerminate hs hown h₁
      -- a space left to the zombie is one the next process shares
      have hshare : ∀ a, (k₁.procTable i).addressSpace = some a →
          ∃ n, findNext k₁ = some n ∧ (k₁.procTable n).addressSpace = some a := by
        intro a ha
        obtain ⟨hk, hv⟩ := hsp a ha
        rcases hexit with e | e | e
        · rw [e] at hk; cases hk
        · exact absurd e hv
        · obtain ⟨n, hn, hsame⟩ := e k₁ h₁
          exact ⟨n, hn, hsame.trans hk⟩
      have hd : ∀ n, Sound (dispatch k₁ n) := fun n => hs₁.still (still_dispatch k₁ n)
      simp only
      cases ha : (k₁.procTable i).addressSpace with
      | none =>
          cases hn : findNext k₁ with
          | none => exact ⟨⟨hs₁.unused, hs₁.held, hs₁.loaded⟩, hs₁.calls⟩
          | some n => exact hd n
      | some a =>
          obtain ⟨n, hn, hna⟩ := hshare a ha
          rw [hn]
          have hsp : ((dispatch k₁ n).procTable n).addressSpace = some a := by
            simpa [dispatch, vmmSwitchSpace, Kernel.modify, Pcb.setState] using hna
          simp only [hsp, ne_eq, not_true_eq_false, if_false]
          exact hd n

/-! ### Waiting -/

variable {frame : Registers}

theorem sound_procWaitPid {pid : UInt64} (hs : Sound k)
    (hx : ∀ i, procFindIndex k pid.toUInt32 = some i → (k.procTable i).state = .zombie → Exclusive k i) :
    Sound (procWaitPid k pid frame).1 := by
  unfold procWaitPid
  split
  · exact hs
  · next i hi =>
      split
      · split
        · exact hs
        · next p _ =>
            have hm : Still k (k.modify p fun q => (q.setWaitingFor pid.toUInt32).setState .blocked) :=
              .modify (fun _ _ h => h) (fun _ h => by cases h)
            exact hs.still (hm.trans (still_procYield _ _ _))
      · next hz => exact hs.release (hx i hi (not_not.mp hz))

theorem sound_procWaitPidResume (hs : Sound k)
    (hx : ∀ i, procFindIndex k pid = some i → Exclusive k i) :
    Sound (procWaitPidResume k pid).1 := by
  unfold procWaitPidResume
  split
  · exact hs
  · next i hi => exact hs.release (hx i hi)

/-! ### Creation -/

theorem newPcb_addressSpace (users : User.UserDb) (pid : UInt32) (a : CreateArgs) :
    (newPcb users pid a).addressSpace = a.addressSpace := by
  unfold newPcb
  simp only
  split <;> rfl

theorem sound_nextPid (hs : Sound k) (pid : UInt32) :
    Sound { k with nextPid := pid } := ⟨⟨hs.unused, hs.held, hs.loaded⟩, hs.calls⟩

theorem sound_nextUserCodeAddr (hs : Sound k) (va : UInt64) :
    Sound { k with nextUserCodeAddr := va } := ⟨⟨hs.unused, hs.held, hs.loaded⟩, hs.calls⟩

theorem sound_procCreateInternal {a : CreateArgs} (hs : Sound k)
    (ha : ∀ x, a.addressSpace = some x → k.spaces x = true) :
    Sound (procCreateInternal k a).1 := by
  unfold procCreateInternal
  split
  · exact hs
  · simp only
    refine (sound_nextPid hs (k.nextPid + 1)).modify (fun h => ?_) fun x hx => ha x ?_
    · rw [newPcb_state] at h; cases h
    · rw [← newPcb_addressSpace k.users k.nextPid]; exact hx

theorem sound_procCreateUserWith {owner : Int32} {entry endMarker : UInt64}
    {priority parent : UInt32} {m : MapAnswers} (hs : Sound k) :
    Sound (procCreateUserWith k owner entry endMarker priority parent m).1 := by
  unfold procCreateUserWith
  split
  · exact hs
  · simp only
    split
    · exact hs
    · split
      · exact hs
      · split
        · split
          · exact hs
          · split
            · exact sound_procCreateInternal hs fun _ h => by cases h
            · refine sound_nextUserCodeAddr (sound_procCreateInternal hs ?_) _
              exact fun _ h => by cases h
        · exact hs

/-- A new space: allocated now, held by nobody. -/
theorem sound_vmmCreateAddressSpace {k k₁ : Kernel} {page : Option Nat} {a : Nat} (hs : Sound k)
    (hcalls : k.destroyCalls = []) (h : vmmCreateAddressSpace k page = some (a, k₁)) :
    Sound k₁ ∧ k₁.spaces a = true ∧ k₁.cr3 ≠ some a ∧ ∀ i, (k₁.procTable i).addressSpace ≠ some a := by
  cases page with
  | none => cases h
  | some b =>
      by_cases hfree : k.spaces b = true
      · rw [vmmCreateAddressSpace, if_pos hfree] at h; cases h
      · rw [vmmCreateAddressSpace, if_neg hfree] at h
        cases h
        have hkeep : ∀ x, k.spaces x = true → Function.update k.spaces a true x = true := fun x hx => by
          by_cases e : x = a
          · rw [e]; simp
          · rw [Function.update_of_ne e]; exact hx
        refine ⟨⟨⟨hs.unused, fun i x hx => hkeep x (hs.held i x hx),
          fun x hx => hkeep x (hs.loaded x hx)⟩, ?_⟩, by simp, fun hc => hfree (hs.loaded a hc),
          fun i hi => hfree (hs.held i a hi)⟩
        simp only
        rw [hcalls]
        exact fun _ hc => by cases hc

/-- The image gets a PID that is not negative as an `int`. -/
def ImageOwned (k : Kernel) (a : ImageArgs) (m : MapAnswers) : Prop :=
  imageAccepted a = true → m.pages = true → userMapStack k m.stack ≠ none → 0 ≤ k.nextPid.toInt32

theorem userMapStack_congr (h : k'.procTable = k.procTable) (mapped : Bool) :
    userMapStack k' mapped = userMapStack k mapped := by
  simp only [userMapStack, pcbAllocSlot, h]

theorem procCreateInternal_pid {a : CreateArgs} (h : pcbAllocSlot k ≠ none) :
    (procCreateInternal k a).2 = k.nextPid.toInt32 := by
  unfold procCreateInternal
  split
  · next e => exact absurd e h
  · rfl

theorem vmmCreateAddressSpace_nextPid {page : Option Nat} {a : Nat}
    (h : vmmCreateAddressSpace k page = some (a, k')) : k'.nextPid = k.nextPid := by
  unfold vmmCreateAddressSpace at h
  split at h
  · cases h
  · split at h <;> cases h
    rfl

theorem sound_procCreateUserImageWith {owner : Int32} {a : ImageArgs} {m : MapAnswers}
    (hs : Sound k) (hcalls : k.destroyCalls = []) (hx : ImageOwned k a m) :
    Sound (procCreateUserImageWith k owner a m).1 := by
  unfold procCreateUserImageWith
  split
  · next hacc =>
      split
      · exact hs
      · next space k₁ h₁ =>
          obtain ⟨hs₁, hlive, hcr3, hheld⟩ := sound_vmmCreateAddressSpace hs hcalls h₁
          split
          · next hpages =>
              split
              · exact hs₁.destroy hlive hcr3 hheld
              · next stackBase stackTop rsp hst =>
                  have hslot : pcbAllocSlot k₁ ≠ none := by
                    intro e; simp [userMapStack, e] at hst
                  have hpid : 0 ≤ k.nextPid.toInt32 := hx hacc hpages (by
                    intro e
                    rw [userMapStack_congr (vmmCreateAddressSpace_procTable h₁), e] at hst
                    cases hst)
                  simp only
                  rw [procCreateInternal_pid hslot, vmmCreateAddressSpace_nextPid h₁,
                    if_neg (Int32.not_lt.mpr hpid)]
                  exact sound_procCreateInternal hs₁ fun x hx => by cases hx; exact hlive
          · exact hs₁.destroy hlive hcr3 hheld
  · exact hs

theorem sound_pcbInitChild {slot parent : Slot} {space : Option Nat}
    (hs : Sound k) (hsp : ∀ a, space = some a → k.spaces a = true) :
    Sound (pcbInitChild k slot parent space frame) := by
  have hclear : Sound ({ k with nextPid := k.nextPid + 1 }.modify slot
      fun p => { p.clearHead with pid := k.nextPid }) :=
    (sound_nextPid hs _).modify (fun _ => rfl) fun _ h => by cases h
  refine Sound.modify (f := fun child => pcbCopyParent child _ space frame) hclear (fun h => ?_) hsp
  cases h

theorem sound_procFork {page : Option Nat} {cloned : Bool}
    (hs : Sound k) (hcalls : k.destroyCalls = []) : Sound (procFork k frame page cloned).1 := by
  unfold procFork
  split
  · exact hs
  · split
    · exact hs
    · split
      · exact sound_pcbInitChild hs fun _ h => by cases h
      · split
        · exact hs
        · next space k₁ h₁ =>
            obtain ⟨hs₁, hlive, hcr3, hheld⟩ := sound_vmmCreateAddressSpace hs hcalls h₁
            split
            · exact sound_pcbInitChild hs₁ fun x hx => by cases hx; exact hlive
            · exact hs₁.destroy hlive hcr3 hheld

theorem sound_procVfork (hs : Sound k) :
    Sound (procVfork k frame).1 := by
  unfold procVfork
  split
  · exact hs
  · next parent _ =>
      split
      · exact hs
      · next slot _ =>
          have hchild : Sound (pcbInitChild k slot parent (k.procTable parent).addressSpace frame) :=
            sound_pcbInitChild hs fun a ha => hs.held parent a ha
          set k₁ := pcbInitChild k slot parent (k.procTable parent).addressSpace frame
          have hmark : Still k₁
              (k₁.modify slot fun p => p.setVforkParent (k₁.procTable parent).pid.toInt32) :=
            .modify (fun _ _ h => h) (fun _ h => h)
          refine (hchild.still hmark).still ?_
          exact .modify (f := fun p => p.awaitVfork k.nextPid frame) (fun _ _ h => h)
            (fun _ h => by cases h)

theorem sound_procCloneVm {childStack : UInt64} (hs : Sound k) :
    Sound (procCloneVm k frame childStack).1 := by
  unfold procCloneVm
  split
  · exact hs
  · next parent _ =>
      split
      · exact hs
      · next slot _ =>
          have hchild : Sound (pcbInitChild k slot parent (k.procTable parent).addressSpace frame) :=
            sound_pcbInitChild hs fun a ha => hs.held parent a ha
          refine hchild.still (.modify
            (f := fun p => if childStack ≠ 0 then p.setRsp childStack else p) (fun p a h => ?_)
            fun p h => ?_)
          · split at h <;> exact h
          · split at h <;> exact h

theorem still_setChildStack (k : Kernel) (pid : Int32) (childStack : UInt64) :
    Still k (setChildStack k pid childStack) := by
  unfold setChildStack
  split
  · split
    · exact .refl k
    · exact .modify (fun _ _ h => h) (fun _ h => h)
  · exact .refl k

theorem sound_procClone {flags childStack : UInt64}
    {page : Option Nat} {cloned : Bool} (hs : Sound k) (hcalls : k.destroyCalls = []) :
    Sound (procClone k frame flags childStack page cloned).1 := by
  unfold procClone
  split
  · exact (sound_procVfork hs).still (still_setChildStack _ _ _)
  · split
    · exact sound_procCloneVm hs
    · exact (sound_procFork hs hcalls).still (still_setChildStack _ _ _)

/-! ### The machine -/

/-- The operation destroys only spaces of which the slots it erases are the sole owners: a
condition on the state before it. -/
def SpaceOk (s : Sys) : Op → Prop
  | .createUserImage a m | .createUserImageArgv a m => ImageOwned s.proc a m
  | .createUserImageAs owner a m => User.userExists s.proc.users owner = true → ImageOwned s.proc a m
  | .exit code => ∀ i, s.proc.currentProc = some i →
      TerminateOwned s.proc i ∧ ExitOwned s.proc i code
  | .killAs actor pid => procCanAct s.proc actor pid = true →
      ∀ i, procFindIndex s.proc pid.toUInt32 = some i → TerminateOwned s.proc i
  | .waitPid pid _ => ∀ i, procFindIndex s.proc pid.toUInt32 = some i →
      (s.proc.procTable i).state = .zombie → Exclusive s.proc i
  | .waitPidAs actor pid _ => procCanAct s.proc actor pid.toUInt32.toInt32 = true →
      ∀ i, procFindIndex s.proc pid.toUInt32 = some i →
        (s.proc.procTable i).state = .zombie → Exclusive s.proc i
  | .resume _ => ∀ pid, s.proc.point = .waitPid pid →
      ∀ i, procFindIndex s.proc pid = some i → Exclusive s.proc i
  | _ => True

theorem stable_true : Stable fun _ _ => True := ⟨fun _ _ => trivial⟩

theorem sound_perform {s s' : Sys} {o : Op} (hs : Sound s.proc) (hcalls : s.proc.destroyCalls = [])
    (hok : SpaceOk s o) (h : perform s o = some s') : Sound s'.proc := by
  by_cases hca : o.onlyCalls = true
  · exact hs.still (calls_perform stable_true hca (usesOk_of_all (fun _ _ => trivial) s o) h).still
  cases o <;> simp only [Op.onlyCalls, not_true_eq_false] at hca
  case exit =>
      obtain ⟨k', hk, rfl⟩ := Option.map_eq_some_iff.mp h
      exact sound_procExit hs hok hk
  case killAs =>
      obtain ⟨k', hk, rfl⟩ := Option.map_eq_some_iff.mp h
      exact sound_procKillAs hs hok hk
  case resume frame =>
      have hs' : Sound { s.proc with point := .process } :=
        ⟨⟨hs.unused, hs.held, hs.loaded⟩, hs.calls⟩
      by_cases hw : ∃ pid, s.proc.point = .waitPid pid
      · obtain ⟨pid, hp⟩ := hw
        simp only [perform, hp, resumeAt] at h
        cases h
        exact sound_procWaitPidResume (k := { s.proc with point := .process }) hs' (hok pid hp)
      · have hc := calls_resumeAt (s := s.setProc { s.proc with point := .process }) stable_true
          (fun pid e => hw ⟨pid, e⟩) (resumeOk_of_all (fun _ _ => trivial) _ _) h
        exact hs'.still hc.still
  all_goals obtain rfl := Option.some.inj h
  case createKernel => exact sound_procCreateInternal hs fun _ h => by cases h
  case createKernelAs =>
      simp only [Sys.setProc_proc, procCreateKernelAs]
      split
      · exact sound_procCreateInternal hs fun _ h => by cases h
      · exact hs
  case createUser => exact sound_procCreateUserWith hs
  case createUserAs =>
      simp only [Sys.setProc_proc, procCreateUserAs]
      split
      · exact sound_procCreateUserWith hs
      · exact hs
  case createUserImage => exact sound_procCreateUserImageWith hs hcalls hok
  case createUserImageArgv => exact sound_procCreateUserImageWith hs hcalls hok
  case createUserImageAs =>
      simp only [Sys.setProc_proc, procCreateUserImageAs]
      split
      · next hu => exact sound_procCreateUserImageWith hs hcalls (hok hu)
      · exact hs
  case fork => exact sound_procFork hs hcalls
  case vfork => exact sound_procVfork hs
  case clone => exact sound_procClone hs hcalls
  case waitPid => exact sound_procWaitPid hs hok
  case waitPidAs =>
      simp only [Sys.setProc_proc, procWaitPidAs]
      split
      · next ha => exact sound_procWaitPid hs (hok ha)
      · exact hs
  case timer => exact hs.still (still_procScheduleInterrupt _ _)
  case startScheduling => exact hs.still (still_procStartScheduling _)

theorem proper_step {s s' : Sys} {o : Op} (hs : Owned s.proc) (hok : SpaceOk (Sys.clearCalls s) o)
    (h : step s o = some s') : Owned s'.proc ∧ ProperCalls s'.proc := by
  unfold step at h
  split at h
  · cases h
  · have hs₀ : Sound (Sys.clearCalls s).proc :=
      ⟨⟨hs.unused, hs.held, hs.loaded⟩, fun _ hc => by cases hc⟩
    have hs' := sound_perform hs₀ rfl hok h
    exact ⟨hs'.toOwned, hs'.properCalls⟩

theorem owned_boot (users : User.UserDb) : Owned (boot users).proc := by
  have h₀ : Sound { users := users } :=
    ⟨⟨fun _ _ => rfl, fun _ _ h => (by cases h), fun _ h => (by cases h)⟩, fun _ h => (by cases h)⟩
  exact (sound_procCreateInternal h₀ fun _ h => by cases h).toOwned

/-- **Address-space ownership.**  In every run whose operations erase sole owners only, every call
of `vmm_destroy_address_space` is proper. -/
theorem spaces_destroyed_properly (users : User.UserDb) (os : List Op)
    (h : Meets step (fun s o => SpaceOk (Sys.clearCalls s) o) (boot users) os) :
    Along step (fun _ _ s' => ProperCalls s'.proc) (boot users) os := by
  have hstep : ∀ s o s', Owned s.proc → SpaceOk (Sys.clearCalls s) o → step s o = some s' →
      Owned s'.proc ∧ ProperCalls s'.proc := fun _ _ _ hI hC hs => proper_step hI hC hs
  exact along_of_inv hstep (owned_boot users) h

/-- An image that `proc_create_user_image` accepts. -/
def smallImage : ImageArgs := { imageSize := 16, loadVaddr := userCodeBase, entryVaddr := userCodeBase }

/-- Two images; the first kills the second and reaps it. -/
def reapRun : List Op :=
  [.createUserImage smallImage { space := some 5 }, .createUserImage smallImage { space := some 6 },
    .startScheduling, .killAs 0 3, .waitPid 3 {}]

theorem spaces_destroyed_properly_reapRun :
    Meets step (fun s o => SpaceOk (Sys.clearCalls s) o) (boot rootOnly) reapRun ∧
      Along step (fun _ _ s' => ProperCalls s'.proc) (boot rootOnly) reapRun := by
  have h : Meets step (fun s o => SpaceOk (Sys.clearCalls s) o) (boot rootOnly) reapRun := by
    refine ⟨fun _ _ _ => by decide +kernel, fun s₁ h₁ => ⟨?_, fun s₂ h₂ => ⟨trivial, fun s₃ h₃ => ?_⟩⟩⟩
    · cases h₁
      exact fun _ _ _ => by decide +kernel
    · cases h₁; cases h₂; cases h₃
      refine ⟨fun _ i hi j _ hd => absurd hd (Descends.none_of_childless ?_),
        fun s₄ h₄ => ⟨fun i hi _ => ?_, fun _ _ => trivial⟩⟩
      · rw [procFindIndex_pid hi]
        decide +kernel
      · have hall : ∀ s ∈ some s₄, ∀ i, procFindIndex (Sys.clearCalls s).proc 3 = some i →
            Exclusive (Sys.clearCalls s).proc i := by
          rw [← h₄]
          decide +kernel
        exact hall s₄ rfl i hi
  exact ⟨h, spaces_destroyed_properly rootOnly reapRun h⟩

/-- An image runs and exits. -/
def exitRun : List Op :=
  [.createUserImage smallImage { space := some 5 }, .startScheduling, .exit 0]

/-- `proc_exit` destroys the space its own zombie still points to. -/
theorem exit_destroys_zombie_space :
    ¬ ∀ users os, Along step (fun _ _ s' => ProperCalls s'.proc) (boot users) os := by
  intro h
  have hrun := h rootOnly exitRun
  revert hrun
  decide +kernel

end Blackmount.Proc
