import Blackmount.Vfs.Aside

/-!
# Vfs — what a reused slot remembers

`VFS_Open` takes the first slot that is not in use and assigns most of its fields; what it does not
assign is left from the slot's last use.  Two tables that agree on the slots in use are compared:
`VFS_Open` returns the same descriptor in both, and then the calls on that descriptor are observed.

* `seen`: what the calls on a descriptor can tell of its slot.
* `sameThrough_of_seen`: two slots that are seen alike behave alike, in every sequence of calls.
* `open_forgets_iff`: the descriptor behaves the same in both tables exactly when the leftovers that
  `VFS_Open` does not overwrite agree.
-/

namespace Blackmount.Vfs
open Blackmount.Lib Blackmount.Ext2 Blackmount.User Blackmount.Proc Blackmount.Net

/-! ### Observing a descriptor -/

inductive FdCall where
  | read (count : Nat) (frame : Registers)
  | write (data : List UInt8) (privileged : Bool) (frame : Registers)
  | close (privileged : Bool)
  | setPos (pos : UInt32) (privileged : Bool)
  | ioctl (req arg : UInt64)

/-- The result of a call and the bytes it put into the caller's buffer. -/
def FdCall.perform (fd : Int32) : FdCall → VfsM (Option Int32 × List UInt8)
  | .read count frame => vfsRead fd count frame
  | .write data privileged frame => return (← vfsWrite fd data privileged frame, [])
  | .close privileged => return (some (← vfsClose fd privileged), [])
  | .setPos pos privileged => return (some (← vfsSetPos fd pos privileged), [])
  | .ioctl req arg => return (some (← vfsIoctl fd req arg), [])

/-- A call, and what happened below the table since the last one: another process runs, memory and
files have changed. -/
structure FdOp where
  between : Base → Base
  call : FdCall

def FdOp.perform (fd : Int32) (o : FdOp) : VfsM (Option Int32 × List UInt8) := fun s =>
  o.call.perform fd { s with base := o.between s.base }

/-- What a sequence of calls returns, and what lies under the table after each. -/
def observe (fd : Int32) : List FdOp → State → List (Option ((Option Int32 × List UInt8) × Base))
  | [], _ => []
  | o :: os, s =>
      match o.perform fd s with
      | none => [none]
      | some (r, s') => some (r, s'.base) :: observe fd os s'

/-- No sequence of calls on the descriptor tells the states apart. -/
def SameThrough (fd : Int32) (s₁ s₂ : State) : Prop := ∀ os, observe fd os s₁ = observe fd os s₂

/-- The tables agree on which slots are in use and on what is in those. -/
structure SameInUse (s₁ s₂ : State) : Prop where
  base : s₁.base = s₂.base
  present : ∀ i, (s₁.openFiles i).present = (s₂.openFiles i).present
  used : ∀ i, (s₁.openFiles i).present = true → s₁.openFiles i = s₂.openFiles i

/-- `VFS_Open` has the same outcome in both states, and the descriptor behaves the same. -/
def HistoryFree (path : UInt64) (privileged byKernel : Bool) (addr : Option Nat) (s₁ s₂ : State) :
    Prop :=
  match vfsOpen path privileged byKernel addr s₁, vfsOpen path privileged byKernel addr s₂ with
  | some (fd₁, s₁'), some (fd₂, s₂') => fd₁ = fd₂ ∧ SameThrough fd₁ s₁' s₂'
  | none, none => True
  | _, _ => False

/-! ### What can be told of a slot -/

/-- The slot without what no call reads: all of it when it is not in use, the flags but KERNEL, the
device when it is not marked as one, the socket when it is none. -/
def VfsFile.seen (x : VfsFile) : VfsFile :=
  if x.present then
    { x with
      flags := x.flags &&& flagKernel
      dev := if x.isDev then x.dev else none
      unixSockId := if x.isSocket then x.unixSockId else 0 }
  else .zero

@[simp] theorem seen_present (x : VfsFile) : x.seen.present = x.present := by
  simp only [VfsFile.seen]
  split
  · rfl
  · next h => simpa [VfsFile.zero] using h

theorem seen_absent {x : VfsFile} (h : x.present = false) : x.seen = .zero := by
  simp [VfsFile.seen, h]

theorem seen_eq {x : VfsFile} (h : x.present = true) :
    x.seen = { x with
      flags := x.flags &&& flagKernel
      dev := if x.isDev then x.dev else none
      unixSockId := if x.isSocket then x.unixSockId else 0 } := by
  simp [VfsFile.seen, h]

theorem and_flagKernel (f : UInt32) : f &&& flagKernel &&& flagKernel = f &&& flagKernel := by
  rw [UInt32.and_assoc]
  rfl

section Seen

variable (x : VfsFile)

theorem deviceFor_seen (has : Device → Bool) (b : Base) (h : x.present = true) :
    deviceFor x.seen has b = deviceFor x has b := by
  rw [seen_eq h]
  simp only [deviceFor]
  split <;> rfl

theorem readSlot_seen (count : Nat) (frame : Registers) :
    readSlot x.seen count frame = readSlot x count frame := by
  cases hp : x.present with
  | false => rw [seen_absent hp]; simp [readSlot, VfsFile.zero, hp]
  | true =>
      have hdev : deviceFor x.seen (·.read) = deviceFor x (·.read) :=
        funext fun b => deviceFor_seen x _ b hp
      simp only [readSlot, hdev, seen_present]
      rw [seen_eq hp]
      simp only
      cases x.isSocket <;> rfl

theorem writeSlot_seen (data : List UInt8) (privileged : Bool) (frame : Registers) :
    writeSlot x.seen data privileged frame = writeSlot x data privileged frame := by
  cases hp : x.present with
  | false => rw [seen_absent hp]; simp [writeSlot, VfsFile.zero, hp]
  | true =>
      have hdev : deviceFor x.seen (·.write) = deviceFor x (·.write) :=
        funext fun b => deviceFor_seen x _ b hp
      simp only [writeSlot, hdev, seen_present]
      rw [seen_eq hp]
      simp only [writable]
      cases x.isSocket <;> rfl

theorem setPosSlot_seen (pos : UInt32) (privileged : Bool) :
    setPosSlot x.seen pos privileged = setPosSlot x pos privileged := by
  cases hp : x.present with
  | false => rw [seen_absent hp]; simp [setPosSlot, VfsFile.zero, hp]
  | true =>
      rw [seen_eq hp]
      simp only [setPosSlot, hp, and_flagKernel]

theorem ioctlSlot_seen (req arg : UInt64) : ioctlSlot x.seen req arg = ioctlSlot x req arg := by
  cases hp : x.present with
  | false => rw [seen_absent hp]; simp [ioctlSlot, VfsFile.zero, hp]
  | true =>
      have hdev : deviceFor x.seen (fun _ => true) = deviceFor x fun _ => true :=
        funext fun b => deviceFor_seen x _ b hp
      simp only [ioctlSlot, hdev, seen_present]
      rw [seen_eq hp]

theorem closeRefusal_seen (privileged : Bool) (pid : Int32) :
    closeRefusal x.seen privileged pid = closeRefusal x privileged pid := by
  cases hp : x.present with
  | false => rw [seen_absent hp]; simp [closeRefusal, VfsFile.zero, hp]
  | true =>
      rw [seen_eq hp]
      simp only [closeRefusal, hp, and_flagKernel]

theorem release_seen (h : x.present = true) : release x.seen = release x := by
  rw [seen_eq h]
  simp only [release]
  cases x.isSocket <;> rfl

/-- The slot a close leaves is seen alike too. -/
theorem closeSlot_seen (privileged : Bool) (b : Base) :
    (closeSlot x privileged b).map (fun r => (r.1.1, r.2, r.1.2.seen)) =
      match closeRefusal x.seen privileged b.pid with
      | some e => some (intError e, b, x.seen)
      | none => (release x.seen b).map fun r => (0, r.2, .zero) := by
  rw [closeSlot_eq, closeRefusal_seen]
  cases hr : closeRefusal x privileged b.pid with
  | some e => rfl
  | none =>
      have hp := closeRefusal_present hr
      simp only [Option.map_map, Function.comp_def, release_seen x hp, seen_absent (closed_present x)]

end Seen

/-! ### Slots that are seen alike behave alike -/

/-- The result of a call, and what it leaves of a descriptor's slot. -/
def glimpse {α : Type} (fd : Int32) (r : α × State) : α × Base × Option VfsFile :=
  (r.1, r.2.base, (slotOf fd).map fun i => (r.2.openFiles i).seen)

/-- The states are alike below the table and at the descriptor. -/
def Alike (fd : Int32) (s₁ s₂ : State) : Prop :=
  s₁.base = s₂.base ∧
    (slotOf fd).map (fun i => (s₁.openFiles i).seen) = (slotOf fd).map fun i => (s₂.openFiles i).seen

section Glimpse

variable {α β : Type} {fd : Int32} {s₁ s₂ : State}

theorem glimpse_onBase {m₁ m₂ : BaseM α} (h : Alike fd s₁ s₂) (hm : m₁ = m₂) :
    (onBase m₁ s₁).map (glimpse fd) = (onBase m₂ s₂).map (glimpse fd) := by
  subst hm
  simp only [onBase, h.1]
  cases m₁ s₂.base with
  | none => rfl
  | some r => simp only [Option.map_some, glimpse, h.2]

theorem glimpse_return {m : VfsM α} (g : α → β)
    (h : (m s₁).map (glimpse fd) = (m s₂).map (glimpse fd)) :
    ((m >>= fun a => pure (g a)) s₁).map (glimpse fd) =
      ((m >>= fun a => pure (g a)) s₂).map (glimpse fd) := by
  have hmap : ∀ s, ((m >>= fun a => pure (g a)) s).map (glimpse fd) =
      ((m s).map (glimpse fd)).map fun t => (g t.1, t.2) := by
    intro s
    simp only [bind_run]
    cases m s <;> rfl
  rw [hmap, hmap, h]

/-- A call that goes to a slot, and depends on what is seen of it. -/
theorem glimpse_slot {m : VfsFile → BaseM α} {e : α} {n : VfsM α}
    (hn : ∀ s, n s = match slotOf fd with
      | none => some (e, s)
      | some i => onBase (m (s.openFiles i)) s)
    (hm : ∀ x, m x.seen = m x) (h : Alike fd s₁ s₂) :
    (n s₁).map (glimpse fd) = (n s₂).map (glimpse fd) := by
  obtain ⟨hb, hx⟩ := h
  rw [hn, hn]
  cases hf : slotOf fd with
  | none => simp only [Option.map_some, glimpse, hf, Option.map_none, hb]
  | some i =>
      refine glimpse_onBase ⟨hb, hx⟩ ?_
      rw [hf, Option.map_some, Option.map_some, Option.some_inj] at hx
      rw [← hm, ← hm (s₂.openFiles i), hx]

theorem glimpse_close (privileged : Bool) (h : Alike fd s₁ s₂) :
    (vfsClose fd privileged s₁).map (glimpse fd) = (vfsClose fd privileged s₂).map (glimpse fd) := by
  obtain ⟨hb, hx⟩ := h
  cases hf : slotOf fd with
  | none => simp [vfsClose, glimpse, hf, hb]
  | some i =>
      have hclose : ∀ s, (vfsClose fd privileged s).map (glimpse fd) =
          ((closeSlot (s.openFiles i) privileged s.base).map
            fun r => (r.1.1, r.2, r.1.2.seen)).map fun t => (t.1, t.2.1, some t.2.2) := by
        intro s
        simp only [vfsClose, hf, bind_run, get_run, Option.bind_some, onBase, setSlot]
        cases closeSlot (s.openFiles i) privileged s.base with
        | none => rfl
        | some r => simp [glimpse, hf]
      rw [hf, Option.map_some, Option.map_some, Option.some_inj] at hx
      rw [hclose, hclose, closeSlot_seen, closeSlot_seen, hb, hx]

/-- **A call tells nothing apart that is seen alike.** -/
theorem glimpse_perform (c : FdCall) (h : Alike fd s₁ s₂) :
    (c.perform fd s₁).map (glimpse fd) = (c.perform fd s₂).map (glimpse fd) := by
  cases c with
  | read count frame =>
      exact glimpse_slot (m := fun x => readSlot x count frame) (e := (some (intError .badF), []))
        (fun s => by simp only [FdCall.perform, vfsRead]; cases slotOf fd <;> rfl)
        (fun x => readSlot_seen x _ _) h
  | write data privileged frame =>
      refine glimpse_return _ ?_
      exact glimpse_slot (m := fun x => writeSlot x data privileged frame) (e := some (intError .badF))
        (fun s => by simp only [vfsWrite]; cases slotOf fd <;> rfl) (fun x => writeSlot_seen x _ _ _) h
  | close privileged => exact glimpse_return _ (glimpse_close privileged h)
  | setPos pos privileged =>
      refine glimpse_return _ ?_
      exact glimpse_slot (m := fun x => setPosSlot x pos privileged) (e := intError .badF)
        (fun s => by simp only [vfsSetPos]; cases slotOf fd <;> rfl) (fun x => setPosSlot_seen x _ _) h
  | ioctl req arg =>
      refine glimpse_return _ ?_
      cases hf : slotOf fd with
      | none => simp [vfsIoctl, hf]
      | some i =>
          refine glimpse_slot (m := fun x => ioctlSlot x req arg) (e := 0)
            (fun s => ?_) (fun x => ioctlSlot_seen x _ _) h
          simp only [vfsIoctl, hf]
          rfl

end Glimpse

/-- **Slots that are seen alike cannot be told apart by any sequence of calls.** -/
theorem sameThrough_of_seen {fd : Int32} {s₁ s₂ : State} (h : Alike fd s₁ s₂) :
    SameThrough fd s₁ s₂ := by
  intro os
  induction os generalizing s₁ s₂ with
  | nil => rfl
  | cons o os ih =>
      have hstep : (o.perform fd s₁).map (glimpse fd) = (o.perform fd s₂).map (glimpse fd) :=
        glimpse_perform o.call ⟨congrArg o.between h.1, h.2⟩
      simp only [observe]
      cases h₁ : o.perform fd s₁ with
      | none =>
          rw [h₁, Option.map_none, eq_comm, Option.map_eq_none_iff] at hstep
          rw [hstep]
      | some r₁ =>
          rw [h₁, Option.map_some, eq_comm, Option.map_eq_some_iff] at hstep
          obtain ⟨r₂, h₂, he⟩ := hstep
          simp only [glimpse, Prod.mk.injEq] at he
          obtain ⟨hr, hb, hx⟩ := he
          rw [h₂]
          simp only [hr, hb, ih ⟨hb.symm, hx.symm⟩]

/-! ### What `VFS_Open` leaves in a slot -/

/-- What `VFS_Open` does not assign is the same in both slots: the KERNEL flag of a slot opened
without privilege, the device mark of one opened for a file that is no device. -/
def SameLeftovers (privileged : Bool) (dev : Option Device) (obj : Opened) (x₁ x₂ : VfsFile) : Prop :=
  (privileged = true ∨ x₁.flags &&& flagKernel = x₂.flags &&& flagKernel) ∧
    match obj with
    | .dir _ => True
    | .file _ => dev.isSome = true ∨
        (x₁.isDev = x₂.isDev ∧ (x₁.isDev = true → x₁.dev = x₂.dev))

/-- If `VFS_Open` takes a slot, the leftovers in it agree. -/
def LeftoversAgree (path : UInt64) (privileged byKernel : Bool) (addr : Option Nat) (s₁ s₂ : State) :
    Prop :=
  opensByPath privileged (s₁.base.str path) → ∀ i o b,
    openObject (s₁.base.str path) privileged byKernel addr s₁.base = some (.ok o, b) →
    firstFree s₁ = some i →
    SameLeftovers privileged (deviceGet s₁.base (s₁.base.str path)) o.obj (s₁.openFiles i)
      (s₂.openFiles i)

section Fill

variable {path : UInt64} {privileged : Bool} {pid : Int32} {dev : Option Device} {o : Opening}

/-- The slots are filled alike when the leftovers agree. -/
theorem fill_seen {x₁ x₂ : VfsFile} (h : SameLeftovers privileged dev o.obj x₁ x₂) :
    (fill x₁ path privileged pid dev o).seen = (fill x₂ path privileged pid dev o).seen := by
  obtain ⟨hk, hd⟩ := h
  rw [seen_eq (fill_present _), seen_eq (fill_present _)]
  have hflags : (if privileged then flagKernel else x₁.flags) &&& flagKernel =
      (if privileged then flagKernel else x₂.flags) &&& flagKernel := by
    rcases hk with hk | hk
    · rw [hk]; rfl
    · split
      · rfl
      · exact hk
  cases ho : o.obj with
  | dir iter => simp [fill, ho, fillDir, hflags]
  | file f =>
      rw [ho] at hd
      simp only [fill, ho, fillFile, hflags, Bool.false_eq_true, if_false]
      rcases hd with hd | ⟨hm, hd⟩
      · simp [hd]
      · cases hx : x₁.isDev with
        | false => cases dev <;> simp [← hm, hx]
        | true => simp [← hm, hx, hd hx]

end Fill

/-! ### Telling slots apart -/

theorem and_flagKernel_cases (f : UInt32) : f &&& flagKernel = 0 ∨ f &&& flagKernel = flagKernel := by
  have hmod : (f &&& flagKernel).toNat = f.toNat % 2 := by
    rw [UInt32.toNat_and]
    exact Nat.and_one_is_mod _
  rcases Nat.mod_two_eq_zero_or_one f.toNat with h | h
  · exact .inl (UInt32.toNat_inj.mp (by rw [hmod, h]; rfl))
  · exact .inr (UInt32.toNat_inj.mp (by rw [hmod, h]; rfl))

section Tell

variable {fd : Int32} {i : Fd} {s s₁ s₂ : State}

/-- Its own process is refused the close of a slot exactly when the slot has the KERNEL flag. -/
theorem observe_close_iff (hi : slotOf fd = some i) (hp : (s.openFiles i).present = true)
    (hs : (s.openFiles i).isSocket = false) (hpid : (s.openFiles i).pid = s.base.pid) :
    observe fd [⟨id, .close false⟩] s = [some ((some (intError .acces), []), s.base)] ↔
      (s.openFiles i).flags &&& flagKernel ≠ 0 := by
  have hclose : FdOp.perform fd ⟨id, .close false⟩ s =
      (closeSlot (s.openFiles i) false s.base).map fun r =>
        ((some r.1.1, []), ⟨r.2, Function.update s.openFiles i r.1.2⟩) := by
    simp only [FdOp.perform, FdCall.perform, vfsClose, hi, bind_run, get_run, Option.bind_some,
      onBase, setSlot, id]
    cases closeSlot (s.openFiles i) false s.base <;> rfl
  simp only [observe, hclose, closeSlot_eq]
  by_cases hk : (s.openFiles i).flags &&& flagKernel = 0
  · have hno : closeRefusal (s.openFiles i) false s.base.pid = none := by
      simp [closeRefusal, hp, hk, hpid]
    rw [hno]
    cases release (s.openFiles i) s.base with
    | none => simp [hk]
    | some r =>
        have hne : (0 : Int32) ≠ intError .acces := by decide
        simp [hk, hne]
  · have hyes : closeRefusal (s.openFiles i) false s.base.pid = some .acces := by
      simp [closeRefusal, hp, hs, hk]
    rw [hyes]
    simp [hk]

theorem flags_of_sameThrough (h : SameThrough fd s₁ s₂) (hi : slotOf fd = some i)
    (hb : s₁.base = s₂.base)
    (hp : ∀ s ∈ [s₁, s₂], (s.openFiles i).present = true ∧ (s.openFiles i).isSocket = false ∧
      (s.openFiles i).pid = s.base.pid) :
    (s₁.openFiles i).flags &&& flagKernel = (s₂.openFiles i).flags &&& flagKernel := by
  obtain ⟨hp₁, hs₁, hpid₁⟩ := hp s₁ (by simp)
  obtain ⟨hp₂, hs₂, hpid₂⟩ := hp s₂ (by simp)
  have h₁ := observe_close_iff hi hp₁ hs₁ hpid₁
  have h₂ := observe_close_iff hi hp₂ hs₂ hpid₂
  rw [h, hb] at h₁
  have hiff := not_iff_not.mp (h₁.symm.trans h₂)
  rcases and_flagKernel_cases (s₁.openFiles i).flags with e | e
  · rw [e, hiff.mp e]
  · rcases and_flagKernel_cases (s₂.openFiles i).flags with e' | e'
    · rw [e', hiff.mpr e']
    · rw [e, e']

/-- What `VFS_ioctl` does to a slot of the process that calls it. -/
theorem ioctlSlot_own {x : VfsFile} {b : Base} (hp : x.present = true) (hpid : x.pid = b.pid) :
    ioctlSlot x 0 0 b =
      if x.isDev then
        match x.dev with
        | none => none
        | some d => some ((b.answers 0).1, { b with
            answers := fun n => b.answers (n + 1)
            log := b.log ++ [.device d (.dispatch b.pid 0 0)] })
      else some (intError .badF, b) := by
  rw [ioctlSlot, get_bind]
  cases hd : x.isDev with
  | false => simp
  | true =>
      cases hv : x.dev with
      | none => simp [hp, hpid, deviceFor, hd, hv]
      | some d =>
          simp [hp, hpid, deviceFor, hd, hv]
          rfl

theorem observe_ioctl {f : Base → Base} (hi : slotOf fd = some i) :
    observe fd [⟨f, .ioctl 0 0⟩] s =
      [(ioctlSlot (s.openFiles i) 0 0 (f s.base)).map fun r => ((some r.1, []), r.2)] := by
  simp only [observe, FdOp.perform, FdCall.perform, vfsIoctl, hi, bind_run, get_run, Option.bind_some,
    onBase]
  cases ioctlSlot (s.openFiles i) 0 0 (f s.base) <;> rfl

theorem device_of_sameThrough {f : Base → Base} (h : SameThrough fd s₁ s₂) (hi : slotOf fd = some i)
    (hb : s₁.base = s₂.base)
    (hp : ∀ s ∈ [s₁, s₂], (s.openFiles i).present = true ∧ (s.openFiles i).pid = (f s.base).pid) :
    (s₁.openFiles i).isDev = (s₂.openFiles i).isDev ∧
      ((s₁.openFiles i).isDev = true → (s₁.openFiles i).dev = (s₂.openFiles i).dev) := by
  obtain ⟨hp₁, hpid₁⟩ := hp s₁ (by simp)
  obtain ⟨hp₂, hpid₂⟩ := hp s₂ (by simp)
  have he := h [⟨f, .ioctl 0 0⟩]
  rw [observe_ioctl hi, observe_ioctl hi, ioctlSlot_own hp₁ hpid₁, ioctlSlot_own hp₂ hpid₂, hb] at he
  -- a device that is called shows in the log
  have hlog := congrArg (List.map (Option.map fun r => r.2.log)) he
  clear he h hb hp hp₁ hp₂ hpid₁ hpid₂
  cases hd₁ : (s₁.openFiles i).isDev with
  | false =>
      cases hd₂ : (s₂.openFiles i).isDev with
      | false => exact ⟨rfl, by simp⟩
      | true => cases hv₂ : (s₂.openFiles i).dev <;> simp [hd₁, hd₂, hv₂] at hlog
  | true =>
      cases hd₂ : (s₂.openFiles i).isDev with
      | false => cases hv₁ : (s₁.openFiles i).dev <;> simp [hd₁, hd₂, hv₁] at hlog
      | true =>
          refine ⟨rfl, fun _ => ?_⟩
          cases hv₁ : (s₁.openFiles i).dev <;> cases hv₂ : (s₂.openFiles i).dev <;>
            simp_all

end Tell

/-! ### Slots carry no history -/

theorem SameInUse.firstFree {s₁ s₂ : State} (h : SameInUse s₁ s₂) : firstFree s₁ = firstFree s₂ := by
  simp only [Vfs.firstFree, h.present]

/-- What is not in use is not seen. -/
theorem SameInUse.seen {s₁ s₂ : State} (h : SameInUse s₁ s₂) (i : Fd) :
    (s₁.openFiles i).seen = (s₂.openFiles i).seen := by
  cases hp : (s₁.openFiles i).present with
  | true => rw [h.used i hp]
  | false => rw [seen_absent hp, seen_absent ((h.present i).symm.trans hp)]

/-- A slot taken by `VFS_Open` behaves the same in two tables exactly when the leftovers agree. -/
theorem sameThrough_fill_iff {path : UInt64} {privileged : Bool} {dev : Option Device} {o : Opening}
    {i : Fd} {b : Base} (t₁ t₂ : Fd → VfsFile) :
    SameThrough (asInt i.val)
        ⟨b, Function.update t₁ i (fill (t₁ i) path privileged b.pid dev o)⟩
        ⟨b, Function.update t₂ i (fill (t₂ i) path privileged b.pid dev o)⟩ ↔
      SameLeftovers privileged dev o.obj (t₁ i) (t₂ i) := by
  constructor
  · intro h
    constructor
    · cases privileged with
      | true => exact .inl rfl
      | false =>
          have hf := flags_of_sameThrough h (slotOf_asInt i) rfl (by simp)
          simp only [Function.update_self, fill_flags] at hf
          exact .inr hf
    · -- the process the slot is labelled with runs, or none when that is the kernel
      let f : Base → Base := fun b =>
        if privileged then { b with net := { b.net with proc := { b.net.proc with currentProc := none } } }
        else b
      have hd := device_of_sameThrough (f := f) h (slotOf_asInt i) rfl (by
        cases privileged <;> simp [f, Base.pid, procGetCurrentPid])
      simp only [Function.update_self] at hd
      cases ho : o.obj with
      | dir iter => trivial
      | file a =>
          simp only [fill, ho, fillFile] at hd
          cases dev with
          | some d => exact .inl rfl
          | none => simpa using hd
  · intro h
    refine sameThrough_of_seen ⟨rfl, ?_⟩
    simp only [slotOf_asInt, Option.map_some, Function.update_self, fill_seen h]

/-- **A descriptor behaves the same whatever was in its slot before, exactly when what `VFS_Open`
leaves of that is the same.** -/
theorem open_forgets_iff {s₁ s₂ : State} (h : SameInUse s₁ s₂) (path : UInt64)
    (privileged byKernel : Bool) (addr : Option Nat) :
    HistoryFree path privileged byKernel addr s₁ s₂ ↔
      LeftoversAgree path privileged byKernel addr s₁ s₂ := by
  have halike : ∀ (fd : Int32) (b : Base), Alike fd ⟨b, s₁.openFiles⟩ ⟨b, s₂.openFiles⟩ := by
    intro fd b
    refine ⟨rfl, ?_⟩
    simp only [h.seen]
  simp only [HistoryFree, LeftoversAgree]
  by_cases hpath : opensByPath privileged (s₁.base.str path)
  · have hpath₂ := hpath
    rw [h.base] at hpath₂
    rw [vfsOpen_eq hpath, vfsOpen_eq hpath₂, ← h.base, ← h.firstFree]
    cases hopen : openObject (s₁.base.str path) privileged byKernel addr s₁.base with
    | none => simp
    | some r =>
        obtain ⟨x, b⟩ := r
        have hpid := (outside_openObject _ _ _ _ _ _ _ hopen).pid
        cases x with
        | error e =>
            simp only [Option.bind_some]
            exact iff_of_true ⟨trivial, sameThrough_of_seen (halike _ b)⟩ (by simp)
        | ok o =>
            simp only [Option.bind_some]
            cases hfree : firstFree s₁ with
            | none =>
                cases hd : discard o.obj b with
                | none => simp
                | some d =>
                    simp only [Option.map_some]
                    exact iff_of_true ⟨trivial, sameThrough_of_seen (halike _ d.2)⟩ (by simp)
            | some i =>
                rw [← hpid]
                simp only [sameThrough_fill_iff, true_and]
                constructor
                · intro hl _ j o' b' ho hj
                  cases ho
                  cases hj
                  exact hl
                · intro hl
                  exact hl hpath i o b rfl rfl
  · have hpath₂ := hpath
    rw [h.base] at hpath₂
    rw [vfsOpen_special hpath, vfsOpen_special hpath₂, ← h.base]
    refine iff_of_true ⟨rfl, sameThrough_of_seen ⟨h.base, ?_⟩⟩ (fun hp => absurd hp hpath)
    simp only [h.seen]

/-- Nothing is open, and the slots hold what is left of `x`. -/
def Tiny.used (x : VfsFile) : State := { state with openFiles := fun _ => x }

theorem sameInUse_used {x y : VfsFile} (hx : x.present = false) (hy : y.present = false) :
    SameInUse (Tiny.used x) (Tiny.used y) :=
  ⟨rfl, fun _ => hx.trans hy.symm, fun _ h => by rw [Tiny.used, hx] at h; cases h⟩

/-- Where a socket was before does not matter. -/
theorem open_forgets_socket :
    HistoryFree 1 false false (some 0) (Tiny.used .zero) (Tiny.used (socketSlot 5 7).closed) := by
  have hsame := sameInUse_used (x := .zero) (y := (socketSlot 5 7).closed) rfl rfl
  refine (open_forgets_iff hsame 1 false false (some 0)).mpr ?_
  simp only [LeftoversAgree]
  intro _ i o b _ _
  refine ⟨.inr rfl, ?_⟩
  cases o.obj with
  | dir iter => trivial
  | file f => exact .inr ⟨rfl, fun _ => rfl⟩

/-- The slot of a file the kernel had opened stays closed to its next user's `VFS_Close`. -/
theorem kernel_flag_outlives_close : ∃ s₁ s₂, SameInUse s₁ s₂ ∧
    ¬ HistoryFree 1 false false (some 0) s₁ s₂ := by
  refine ⟨Tiny.used .zero, Tiny.used { VfsFile.zero with flags := flagKernel },
    sameInUse_used rfl rfl, fun h => ?_⟩
  have hclosed : ∀ x, x = VfsFile.zero ∨ x = { VfsFile.zero with flags := flagKernel } →
      (vfsOpen 1 false false (some 0) (Tiny.used x)).map (fun r =>
        (observe r.1 [⟨id, .close false⟩] r.2).map (Option.map fun t => t.1.1)) =
      some [some (some (if x.flags = 0 then 0 else intError .acces))] := by
    rintro x (rfl | rfl) <;> decide +kernel
  have h₁ := hclosed _ (.inl rfl)
  have h₂ := hclosed _ (.inr rfl)
  obtain ⟨r₁, e₁, o₁⟩ := Option.map_eq_some_iff.mp h₁
  obtain ⟨r₂, e₂, o₂⟩ := Option.map_eq_some_iff.mp h₂
  rw [HistoryFree, e₁, e₂] at h
  obtain ⟨hfd, hsame⟩ := h
  rw [← hfd, ← hsame, o₁] at o₂
  exact absurd o₂ (by decide)

end Blackmount.Vfs
