import Blackmount.Vfs.System

/-!
# Vfs — one process and the descriptors of another

One table serves all processes; a slot names the process it belongs to in its `pid`, and each call has
to look at it by itself.

* `Isolated`: a call leaves alone the slots of other processes and what those slots hold, and through
  such a slot it changes nothing and gains nothing.
* `descriptors_isolated`: in a run in which no process duplicates a descriptor of another, a directory
  or one that all may write, puts a duplicate over another's, or changes the attributes behind
  another's, every call is isolated.
-/

namespace Blackmount.Vfs
open Blackmount.Lib Blackmount.Ext2 Blackmount.User Blackmount.Proc Blackmount.Net

/-! ### The property -/

/-- The slot belongs to another process. -/
def Foreign (pid : Int32) (x : VfsFile) : Prop := x.present = true ∧ x.pid ≠ pid ∧ x.pid ≠ -1

instance (pid : Int32) (x : VfsFile) : Decidable (Foreign pid x) := by delta Foreign; infer_instance

/-- The descriptors a call is given. -/
def Call.Takes (i : Fd) : Call → Prop
  | .open _ _ _ _ => False
  | .close fd | .read fd _ _ | .readv fd _ _ _ | .write fd _ _ | .writev fd _ _ _ | .getdents64 fd _ _ =>
      slotOf (fdInt fd) = some i
  | .lseek fd _ | .dup fd _ | .fstat fd _ | .fchmod fd _ | .fchown fd _ _ => slot64 fd = some i
  | .dup2 oldfd newfd _ => slot64 oldfd = some i ∨ slot64 newfd = some i

/-- The slots of other processes and the objects they hold are left alone. -/
def Spares (pid : Int32) (s s' : State) : Prop :=
  ∀ i, Foreign pid (s.openFiles i) → s'.openFiles i = s.openFiles i ∧
    ∀ a, (s.openFiles i).file = some a ∨ (s.openFiles i).dirIter = some a →
      s'.base.heap a = s.base.heap a

/-- The table and the disks are what they were. -/
def Untouched (s s' : State) : Prop := s'.openFiles = s.openFiles ∧ SameDisks s.base s'.base

/-- No two slots in use hold the same object. -/
def Unaliased (s : State) : Prop :=
  ∀ i j a, i ≠ j → (s.openFiles i).present = true → (s.openFiles j).present = true →
    ((s.openFiles i).file = some a → (s.openFiles j).file ≠ some a) ∧
      ((s.openFiles i).dirIter = some a → (s.openFiles j).dirIter ≠ some a)

/-- A call by a process leaves the descriptors of the others alone, does nothing through them, and
gives it none of the objects they hold. -/
def Isolated (s : State) : Op → State → Prop
  | .call c call, s' =>
      Spares (s.base.runAs c).pid s s' ∧ Unaliased s' ∧
        ∀ i, call.Takes i → Foreign (s.base.runAs c).pid (s.openFiles i) → Untouched s s'
  | _, _ => True

/-! ### The condition -/

/-- What may be duplicated: no descriptor of another process, no directory, none that all may write. -/
def MayCopy (pid : Int32) (x : VfsFile) : Prop :=
  x.present = true → ¬ Foreign pid x ∧ x.dirIter = none ∧ x.writeAll = false

/-- The condition on a call. -/
def DiscreetCall (s : State) : Call → Prop
  | .dup fd _ => ∀ j ∈ slot64 fd, MayCopy s.base.pid (s.openFiles j)
  | .dup2 oldfd newfd _ => (∀ j ∈ slot64 oldfd, MayCopy s.base.pid (s.openFiles j)) ∧
      ∀ i ∈ slot64 newfd, ¬ Foreign s.base.pid (s.openFiles i)
  | .fchmod fd _ | .fchown fd _ _ => ∀ j ∈ slot64 fd, ¬ Foreign s.base.pid (s.openFiles j)
  | _ => True

/-- The condition on a step; the kernel lets all write only what it opened itself. -/
def Discreet (s : State) : Op → Prop
  | .call c call => DiscreetCall (s.runAs c) call
  | .setWriteAll i => (s.openFiles i).pid = -1
  | _ => True

instance (pid : Int32) (x : VfsFile) : Decidable (MayCopy pid x) := by delta MayCopy; infer_instance

instance (s : State) (call : Call) : Decidable (DiscreetCall s call) := by
  apply Call.casesOn (motive := fun call => Decidable (DiscreetCall s call)) call <;> intros <;>
    (delta DiscreetCall; first | exact Option.decidableForallMem _ | infer_instance)

instance (s : State) (o : Op) : Decidable (Discreet s o) := by
  apply Op.casesOn (motive := fun o => Decidable (Discreet s o)) o <;> intros <;>
    (delta Discreet; infer_instance)

/-! ### The invariant -/

structure Iso (s : State) : Prop where
  held : Held (fun _ _ => True) s
  dirs : Owned VfsFile.dirIter AnyDir s
  writeAll : ∀ i, (s.openFiles i).present = true → (s.openFiles i).writeAll = true →
    (s.openFiles i).pid = -1

theorem grants_true : Grants fun _ _ => True := fun _ _ _ _ => trivial

section Relations

variable {pid : Int32} {s s' s'' : State}

theorem Spares.refl (s : State) : Spares pid s s := fun _ _ => ⟨rfl, fun _ _ => rfl⟩

theorem Spares.trans (h₁ : Spares pid s s') (h₂ : Spares pid s' s'') : Spares pid s s'' := by
  intro i hi
  obtain ⟨ht₁, hh₁⟩ := h₁ i hi
  rw [← ht₁] at hi
  obtain ⟨ht₂, hh₂⟩ := h₂ i hi
  rw [ht₁] at hh₂
  exact ⟨ht₂.trans ht₁, fun a ha => (hh₂ a ha).trans (hh₁ a ha)⟩

theorem Untouched.refl (s : State) : Untouched s s := ⟨rfl, .refl _⟩

theorem Untouched.trans (h₁ : Untouched s s') (h₂ : Untouched s' s'') : Untouched s s'' :=
  ⟨h₂.1.trans h₁.1, h₁.2.trans h₂.2⟩

end Relations

section Invariant

variable {s s' : State} {pid : Int32}

theorem Iso.unaliased (h : Iso s) : Unaliased s := by
  intro i j a hij hi hj
  exact ⟨fun hfi hfj => hij (h.held.files.unshared i j a hi hj hfi hfj),
    fun hdi hdj => hij (h.dirs.unshared i j a hi hj hdi hdj)⟩

/-- The heap grew, and of the slots in use only such as are not another's changed. -/
theorem Iso.spares_grows (h : Iso s) (hgrow : Grows s.base s'.base)
    (ht : ∀ i, Foreign pid (s.openFiles i) → s'.openFiles i = s.openFiles i) : Spares pid s s' := by
  refine fun i hi => ⟨ht i hi, ?_⟩
  rintro a (ha | ha)
  · obtain ⟨o, hh, -⟩ := h.held.files.valid i a hi.1 ha
    rw [hh, hgrow a o hh]
  · obtain ⟨o, hh, -⟩ := h.dirs.valid i a hi.1 ha
    rw [hh, hgrow a o hh]

/-- Only objects that a slot which is not another's holds were changed. -/
theorem Iso.spares_own (h : Iso s) {j : Fd} (hj : (s.openFiles j).present = true)
    (hown : ¬ Foreign pid (s.openFiles j))
    (hh : ∀ a, s'.base.heap a ≠ s.base.heap a →
      (s.openFiles j).file = some a ∨ (s.openFiles j).dirIter = some a)
    (ht : ∀ i, Foreign pid (s.openFiles i) → s'.openFiles i = s.openFiles i) : Spares pid s s' := by
  refine fun i hi => ⟨ht i hi, fun a ha => ?_⟩
  by_contra hne
  have hij : i ≠ j := fun e => hown (e ▸ hi)
  rcases ha with ha | ha <;> rcases hh a hne with hb | hb
  · exact hij (h.held.files.unshared i j a hi.1 hj ha hb)
  · obtain ⟨o, ho, f, rfl, -⟩ := h.held.files.valid i a hi.1 ha
    obtain ⟨o', ho', d, rfl⟩ := h.dirs.valid j a hj hb
    rw [ho] at ho'
    cases ho'
  · obtain ⟨o, ho, d, rfl⟩ := h.dirs.valid i a hi.1 ha
    obtain ⟨o', ho', f, rfl, -⟩ := h.held.files.valid j a hj hb
    rw [ho] at ho'
    cases ho'
  · exact hij (h.dirs.unshared i j a hi.1 hj ha hb)

theorem Iso.congr (h : Iso s) (ho : s'.openFiles = s.openFiles) (hh : s'.base.heap = s.base.heap) :
    Iso s' :=
  ⟨h.held.congr ho hh, h.dirs.congr ho hh, by rw [ho]; exact h.writeAll⟩

theorem Iso.mild {A : Nat → Prop} (h : Iso s) (hm : Mild A s.base s'.base)
    (ho : s'.openFiles = s.openFiles) : Iso s' :=
  ⟨h.held.mild grants_true hm ho, h.dirs.mild anyDir_kind hm ho, by rw [ho]; exact h.writeAll⟩

/-- Calls that change neither the table nor the heap. -/
theorem Spares.of_same (ho : s'.openFiles = s.openFiles) (hh : s'.base.heap = s.base.heap) :
    Spares pid s s' := fun i _ => ⟨by rw [ho], fun a _ => by rw [hh]⟩

/-- A slot that is filled or overwritten. -/
theorem Iso.writeAll_set {i : Fd} {x : VfsFile} (h : Iso s)
    (ho : s'.openFiles = Function.update s.openFiles i x)
    (hx : x.present = true → x.writeAll = true → x.pid = -1) (j : Fd) :
    (s'.openFiles j).present = true → (s'.openFiles j).writeAll = true → (s'.openFiles j).pid = -1 := by
  rw [ho]
  by_cases e : j = i
  · rw [e, Function.update_self]
    exact hx
  · rw [Function.update_of_ne e]
    exact h.writeAll j

end Invariant

/-! ### What each call keeps -/

/-- What a call that is given the descriptors `T` has to show. -/
structure Keeping (T : Fd → Prop) (s s' : State) : Prop where
  iso : Iso s'
  spares : Spares s.base.pid s s'
  pid : s'.base.pid = s.base.pid
  refused : ∀ i, T i → Foreign s.base.pid (s.openFiles i) → Untouched s s'

namespace Keeping

variable {T : Fd → Prop} {s s' s'' : State}

theorem refl (h : Iso s) : Keeping T s s := ⟨h, .refl s, rfl, fun _ _ _ => .refl s⟩

theorem trans (h₁ : Keeping T s s') (h₂ : Keeping T s' s'') : Keeping T s s'' := by
  have hp := h₁.pid
  refine ⟨h₂.iso, h₁.spares.trans (hp ▸ h₂.spares), h₂.pid.trans hp, fun i hT hi => ?_⟩
  have hu := h₁.refused i hT hi
  refine hu.trans (h₂.refused i hT ?_)
  rw [hp, hu.1]
  exact hi

/-- A call that changes neither the table nor the heap nor the disks. -/
theorem of_same (h : Iso s) (ho : s'.openFiles = s.openFiles) (hh : s'.base.heap = s.base.heap)
    (hp : s'.base.pid = s.base.pid) (hd : SameDisks s.base s'.base) : Keeping T s s' :=
  ⟨h.congr ho hh, .of_same ho hh, hp, fun _ _ _ => ⟨ho, hd⟩⟩

/-- A call that uses one object, of a slot that is not another's. -/
theorem of_mild {i : Fd} {a : Nat} (h : Iso s) (ho : s'.openFiles = s.openFiles)
    (hm : Mild (· = a) s.base s'.base) (hp : (s.openFiles i).present = true)
    (hown : ¬ Foreign s.base.pid (s.openFiles i)) (hT : ∀ j, T j → j = i)
    (ha : (s.openFiles i).file = some a ∨ (s.openFiles i).dirIter = some a) : Keeping T s s' := by
  refine ⟨h.mild hm ho, h.spares_own hp hown (fun a' hne => ?_) fun j _ => by rw [ho], hm.pid,
    fun j hj hf => absurd (hT j hj ▸ hf) hown⟩
  by_cases e : a' = a
  · exact e ▸ ha
  · exact absurd (hm.within a' e) hne

end Keeping

variable {fd r : Int32} {frame : Registers}

section Calls

variable {s s' : State}

/-- The slot is the caller's, or the kernel's. -/
theorem not_foreign {pid : Int32} {x : VfsFile} (h : x.pid = -1 ∨ x.pid = pid) : ¬ Foreign pid x := by
  rintro ⟨-, hne, hk⟩
  rcases h with h | h
  · exact hk h
  · exact hne h

theorem Iso.vfsRead {count : Nat} {r : Option Int32 × List UInt8}
    (h : Iso s) (hr : Vfs.vfsRead fd count frame s = some (r, s')) :
    Keeping (fun i => slotOf fd = some i) s s' := by
  obtain ⟨ho, hidle | ⟨i, a, f, f', hi, hp, hpid, ha, ht⟩⟩ := vfsRead_some h.held.plain hr
  · exact .of_same h ho hidle.heap hidle.pid (.of_eq hidle.fss)
  · exact .of_mild h ho ht.mild hp (not_foreign hpid)
      (fun j hj => by rw [hi] at hj; exact (Option.some_inj.mp hj).symm) (.inl ha)

/-- A slot of another process is refused to `VFS_Write` at once. -/
theorem writeSlot_refused {x : VfsFile} {data : List UInt8} {b : Base}
    (hs : x.isSocket = false) (hf : Foreign b.pid x) (hw : x.writeAll = false) :
    writeSlot x data false frame b = some (some (intError .acces), b) := by
  rw [writeSlot, get_bind, if_neg (by simp [hf.1]), if_neg (by simp [hs]), if_pos ⟨rfl, hf.2.1, hw⟩]
  rfl

theorem Iso.vfsWrite {data : List UInt8} {r : Option Int32}
    (h : Iso s) (hr : Vfs.vfsWrite fd data false frame s = some (r, s')) :
    Keeping (fun i => slotOf fd = some i) s s' := by
  have hrefused : ∀ i, slotOf fd = some i → Foreign s.base.pid (s.openFiles i) → Untouched s s' := by
    intro i hi hf
    have hw : (s.openFiles i).writeAll = false := by
      cases hw : (s.openFiles i).writeAll with
      | false => rfl
      | true => exact absurd (h.writeAll i hf.1 hw) hf.2.2
    simp only [Vfs.vfsWrite, hi, get_bind, onBase,
      writeSlot_refused (h.held.plain i hf.1) hf hw] at hr
    cases hr
    exact .refl s
  obtain ⟨ho, haside | ⟨i, b₁, hi, hcheck, hrest⟩⟩ := vfsWrite_some h.held.plain hr
  · exact ⟨h.congr ho haside.heap, .of_same ho haside.heap, haside.pid, hrefused⟩
  · have h₁ : Iso { s with base := b₁ } := h.congr rfl hcheck.heap
    have hown : ¬ Foreign s.base.pid (s.openFiles i) := by
      refine not_foreign ?_
      rcases hcheck.caller with hp | hp | hp
      · cases hp
      · exact .inr hp
      · exact .inl (h.writeAll i hcheck.present hp)
    have hfirst : Spares s.base.pid s { s with base := b₁ } := .of_same rfl hcheck.heap
    rcases hrest with hidle | ⟨a, f, f', ha, ht, -⟩
    · have hheap : s'.base.heap = s.base.heap := hidle.heap.trans hcheck.heap
      exact ⟨h.congr ho hheap, .of_same ho hheap, hidle.pid.trans hcheck.pid, hrefused⟩
    · have hk := Keeping.of_mild (T := fun j => j = i) h₁ ho ht.mild hcheck.present
        (by rw [hcheck.pid]; exact hown) (fun j hj => hj) (.inl ha)
      have hsp : Spares b₁.pid { s with base := b₁ } s' := hk.spares
      rw [hcheck.pid] at hsp
      exact ⟨hk.iso, hfirst.trans hsp, hk.pid.trans hcheck.pid, hrefused⟩

theorem Iso.vfsSetPos {pos : UInt32} (h : Iso s)
    (hr : Vfs.vfsSetPos fd pos false s = some (r, s')) :
    Keeping (fun i => slotOf fd = some i) s s' := by
  obtain ⟨ho, -, hb | ⟨i, a, hi, hp, hpid, ha, hm⟩⟩ := vfsSetPos_some hr
  · exact .of_same h ho (by rw [hb]) (by rw [hb]) (.of_eq (by rw [hb]))
  · refine .of_mild h ho hm hp (not_foreign (.inr ?_))
      (fun j hj => by rw [hi] at hj; exact (Option.some_inj.mp hj).symm) (.inl ha)
    rcases hpid with hpid | hpid
    · cases hpid
    · exact hpid

theorem Iso.vfsGetDents64 {count : Nat} {r : Int32 × List DirEntry} (h : Iso s)
    (hr : Vfs.vfsGetDents64 fd count s = some (r, s')) :
    Keeping (fun i => slotOf fd = some i) s s' := by
  obtain ⟨ho, -, hb | ⟨i, a, hi, hp, -, hpid, ha, hm⟩⟩ := vfsGetDents64_some hr
  · exact .of_same h ho (by rw [hb]) (by rw [hb]) (.of_eq (by rw [hb]))
  · exact .of_mild h ho hm hp (not_foreign (.inr hpid))
      (fun j hj => by rw [hi] at hj; exact (Option.some_inj.mp hj).symm) (.inr ha)

/-- What `VFS_Close` gives back of directory iterators was the slot's own. -/
theorem release_dir {x : VfsFile} {b b' : Base} {u : Unit} (hs : x.isSocket = false)
    (h : release x b = some (u, b')) {a : Nat} {o : Obj} (ha : b.heap a = some o)
    (hne : b'.heap a ≠ some o) : x.dirIter = some a ∨ ∀ pid, ¬ AnyDir pid o := by
  rcases release_some hs h with ⟨a', d, hd, hfrees⟩ | ⟨a', f, -, hfrees⟩ | ⟨-, e⟩
  · by_cases e : a = a'
    · exact .inl (e ▸ hd)
    · rw [hfrees.heap, Function.update_of_ne e] at hne
      exact absurd ha hne
  · by_cases e : a = a'
    · right
      rintro pid ⟨d, rfl⟩
      rw [e, hfrees.was] at ha
      cases ha
    · rw [hfrees.heap, Function.update_of_ne e] at hne
      exact absurd ha hne
  · rw [e] at hne
    exact absurd ha hne

/-- What `VFS_Close` changes in the heap is what the slot holds. -/
theorem release_within {x : VfsFile} {b b' : Base} {u : Unit} (hs : x.isSocket = false)
    (h : release x b = some (u, b')) {a : Nat} (hne : b'.heap a ≠ b.heap a) :
    x.file = some a ∨ x.dirIter = some a := by
  rcases release_some hs h with ⟨a', d, hd, hfrees⟩ | ⟨a', f, hf, hfrees⟩ | ⟨-, e⟩
  · by_cases e : a = a'
    · exact .inr (e ▸ hd)
    · exact absurd (by rw [hfrees.heap, Function.update_of_ne e]) hne
  · by_cases e : a = a'
    · exact .inl (e ▸ hf)
    · exact absurd (by rw [hfrees.heap, Function.update_of_ne e]) hne
  · exact absurd (by rw [e]) hne

theorem Iso.vfsClose (h : Iso s)
    (hc : Vfs.vfsClose fd false s = some (r, s')) : Keeping (fun i => slotOf fd = some i) s s' := by
  rcases vfsClose_cases hc with rfl | ⟨i, hi, href, hr, ho⟩
  · exact .refl h
  · have hp := closeRefusal_present href
    have hs := h.held.plain i hp
    have hpid : (s.openFiles i).pid = s.base.pid := by
      by_contra hne
      simp [closeRefusal, hp, hne] at href
    have hown := not_foreign (x := s.openFiles i) (.inr hpid)
    refine ⟨⟨h.held.lose ho hp hr, h.dirs.lose ho hp fun a o ha hne => release_dir hs hr ha hne, ?_⟩,
      h.spares_own hp hown (fun a hne => release_within hs hr hne) fun j hj => ?_,
      (outside_release hs _ _ _ hr).pid, fun j hj hf => ?_⟩
    · exact h.writeAll_set ho fun h' => by rw [closed_present] at h'; cases h'
    · have hne : j ≠ i := fun e => hown (e ▸ hj)
      rw [ho, Function.update_of_ne hne]
    · rw [hi] at hj
      exact absurd (Option.some_inj.mp hj ▸ hf) hown

theorem firstFree_absent {i : Fd} (h : firstFree s = some i) : (s.openFiles i).present = false := by
  simpa using List.find?_some h

theorem Iso.vfsOpen {path : UInt64} {privileged byKernel : Bool} {addr : Option Nat}
    (h : Iso s) (ho : Vfs.vfsOpen path privileged byKernel addr s = some (r, s')) :
    Keeping (fun _ => False) s s' := by
  have hheld := held_vfsOpen h.held ho fun _ _ _ _ _ => trivial
  obtain ⟨hout, -, ⟨ht, hh⟩ | ⟨i, o, hfill⟩⟩ := vfsOpen_cases ho
  · exact ⟨h.congr ht hh, .of_same ht hh, hout.pid, fun _ hT => hT.elim⟩
  · have habsent := firstFree_absent hfill.free
    have hobt := hfill.obtains
    have hslot : ∀ j, Foreign s.base.pid (s.openFiles j) → s'.openFiles j = s.openFiles j := by
      intro j hj
      have hne : j ≠ i := by
        rintro rfl
        rw [hj.1] at habsent
        cases habsent
      rw [hfill.table, Function.update_of_ne hne]
    have hwrite := h.writeAll_set hfill.table fun _ hw => by
      cases hob : o.obj <;> simp [fill, hob, fillDir, fillFile] at hw
    cases hobt with
    | dir may adds fs opened =>
        refine ⟨⟨hheld, h.dirs.gain hfill.table adds.grows fun a ha => ?_, hwrite⟩,
          h.spares_grows adds.grows hslot, hout.pid, fun _ hT => hT.elim⟩
        cases ha
        exact ⟨adds.fresh, _, by rw [adds.heap, Function.update_self], _, rfl⟩
    | file may adds opened =>
        refine ⟨⟨hheld, h.dirs.gain hfill.table adds.grows fun a ha => ?_, hwrite⟩,
          h.spares_grows adds.grows hslot, hout.pid, fun _ hT => hT.elim⟩
        cases ha

/-- A slot that may be copied is copied into one that is not another's. -/
theorem Iso.copy {i j : Fd} {y : VfsFile} {addr : Option Nat} (h : Iso s)
    (hj : (s.openFiles j).present = true) (hmay : MayCopy s.base.pid (s.openFiles j))
    (hi : ¬ Foreign s.base.pid (s.openFiles i))
    (hcopy : copySlot (s.openFiles j) addr s.base = some (y, s'.base))
    (ho : s'.openFiles = Function.update s.openFiles i y) : Keeping (fun _ => False) s s' := by
  obtain ⟨-, hdir, hall⟩ := hmay hj
  obtain ⟨hout, hy, hfile⟩ := copySlot_some hcopy
  have hgrow : Grows s.base s'.base := by
    rcases hfile with ⟨-, hheap⟩ | ⟨p, a, f, -, -, hadds, -⟩
    · exact fun a o ha => by rw [hheap, ha]
    · exact hadds.grows
  refine ⟨⟨held_copy h.held hj hcopy ho fun _ _ _ _ _ => trivial,
    h.dirs.gain ho hgrow fun a ha => ?_, h.writeAll_set ho fun _ hw => ?_⟩,
    h.spares_grows hgrow fun k hk => ?_, hout.pid, fun _ hT => hT.elim⟩
  · rw [hy] at ha
    exact absurd ha (by simp [hdir])
  · rw [hy] at hw
    exact absurd hw (by simp [hall])
  · have hne : k ≠ i := fun e => hi (e ▸ hk)
    rw [ho, Function.update_of_ne hne]

/-- A call on the path of a descriptor. -/
theorem Keeping.of_aside {T : Fd → Prop} (h : Iso s) (ho : s'.openFiles = s.openFiles)
    (ha : Aside Event.isLookup s.base s'.base)
    (hT : ∀ i, T i → Foreign s.base.pid (s.openFiles i) → SameDisks s.base s'.base) :
    Keeping T s s' :=
  ⟨h.congr ho ha.heap, .of_same ho ha.heap, ha.pid, fun i hi hf => ⟨ho, hT i hi hf⟩⟩

/-- `sys_fstat` only reads. -/
theorem disks_sysFstat {fd statbuf : UInt64} {r : UInt64 × Option Inode}
    (h : sysFstat fd statbuf s = some (r, s')) : SameDisks s.base s'.base := by
  simp only [sysFstat] at h
  split at h
  · cases h; exact .refl _
  · rw [get_bind] at h
    cases hp : pathOf s fd with
    | none =>
        rw [hp] at h
        cases h
        exact .refl _
    | some p =>
        rw [hp] at h
        simp only [get_bind] at h
        obtain ⟨x, s₁, h₁, h₂⟩ := bind_some.mp h
        have hs : s' = s₁ := by cases x <;> (cases h₂; rfl)
        rw [hs]
        exact (disks_get.bind fun _ => disks_onPath _ _ _ (reads_stat _)) _ _ _ (onBase_some h₁).1

/-- A descriptor below the size of the table is the same as an `int`. -/
theorem slotOf_fdInt {fd : UInt64} {i : Fd} (h : slot64 fd = some i) : slotOf (fdInt fd) = some i := by
  simp only [slot64] at h
  split at h
  · next hlt =>
      cases h
      have hall : ∀ n, n < maxOpenFiles → fdInt (UInt64.ofNat n) = asInt (UInt64.ofNat n).toNat := by
        decide +kernel
      have hfd := hall fd.toNat hlt
      rw [UInt64.ofNat_toNat] at hfd
      rw [hfd]
      exact slotOf_asInt ⟨fd.toNat, hlt⟩
  · cases h

/-- **A call that meets the condition leaves the descriptors of other processes alone.** -/
theorem Iso.perform {call : Call} (h : Iso s) (hsafe : DiscreetCall s call) {u : Unit}
    (hp : call.perform s = some (u, s')) : Keeping (fun i => call.Takes i) s s' := by
  cases call <;> (obtain ⟨r, s₁, h₁, h₂⟩ := bind_some.mp hp; cases h₂)
  case «open» path flags addr stack =>
      obtain ⟨s₀, ho, ha, rfl | ⟨fd, hopen⟩⟩ := sysOpen_some h₁
      · exact .of_aside h ho ha fun _ hT => hT.elim
      · have hk : Keeping (fun _ => False) s s₀ := .of_aside h ho ha fun _ hT => hT.elim
        exact hk.trans (hk.iso.vfsOpen hopen)
  case close fd =>
      obtain ⟨q, s₂, h₃, h₄⟩ := bind_some.mp h₁
      have hs : s' = s₂ := by split at h₄ <;> (cases h₄; rfl)
      rw [hs]
      exact h.vfsClose h₃
  case lseek fd offset =>
      simp only [sysLseek] at h₁
      cases hi : slot64 fd with
      | none =>
          rw [hi] at h₁
          cases h₁
          exact .refl h
      | some i =>
          rw [hi] at h₁
          obtain ⟨q, s₂, h₃, h₄⟩ := bind_some.mp h₁
          have hs : s' = s₂ := by split at h₄ <;> (cases h₄; rfl)
          rw [hs]
          have hk := h.vfsSetPos h₃
          exact ⟨hk.iso, hk.spares, hk.pid, fun j hj hf => hk.refused j (slotOf_fdInt hj) hf⟩
  case read fd count frame =>
      obtain ⟨q, s₂, h₃, h₄⟩ := bind_some.mp h₁
      cases h₄
      exact h.vfsRead h₃
  case readv fd iov vs frame =>
      exact keeps_sysReadv (R := fun s s' => Iso s → Keeping (fun i => slotOf (fdInt fd) = some i) s s')
        (fun _ => .refl) (fun h h' hi => (h hi).trans (h' (h hi).iso)) (fun _ _ _ _ hr h => h.vfsRead hr) iov vs s r s' h₁ h
  case write fd data frame =>
      obtain ⟨q, s₂, h₃, h₄⟩ := bind_some.mp h₁
      cases h₄
      exact h.vfsWrite h₃
  case writev fd iov copied frame =>
      exact keeps_sysWritev (R := fun s s' => Iso s → Keeping (fun i => slotOf (fdInt fd) = some i) s s')
        (fun _ => .refl) (fun h h' hi => (h hi).trans (h' (h hi).iso)) (fun _ _ _ _ hw h => h.vfsWrite hw) iov copied s r s' h₁ h
  case getdents64 fd buf size =>
      simp only [sysGetdents64] at h₁
      split at h₁
      · cases h₁; exact .refl h
      · obtain ⟨q, s₂, h₃, h₄⟩ := bind_some.mp h₁
        have hs : s' = s₂ := by split at h₄ <;> (cases h₄; rfl)
        rw [hs]
        exact h.vfsGetDents64 h₃
  case dup fd addr =>
      rcases sysDup_cases h₁ with ⟨rfl, -⟩ | ⟨j, i, y, hj, hpj, hi, hcopy, ho⟩
      · exact .refl h
      · have hfree : ¬ Foreign s.base.pid (s.openFiles i) := by
          rintro ⟨hpres, -⟩
          rw [firstFree_absent hi] at hpres
          cases hpres
        have hk := h.copy hpj (hsafe j hj) hfree hcopy ho
        refine ⟨hk.iso, hk.spares, hk.pid, fun k hT hf => ?_⟩
        have hT : slot64 fd = some k := hT
        rw [hj] at hT
        cases hT
        exact absurd hf (hsafe j hj hpj).1
  case dup2 oldfd newfd addr =>
      obtain ⟨hsource, htarget⟩ := hsafe
      rcases sysDup2_cases h₁ with ⟨rfl, -⟩ | ⟨j, i, s₂, y, hj, hi, hdup⟩
      · exact .refl h
      · have hti := htarget i hi
        have hk₁ : Keeping (fun k => slotOf (asInt i.val) = some k) s s₂ := by
          rcases hdup.target with ⟨-, rfl⟩ | ⟨-, q, hc⟩
          · exact .refl h
          · exact h.vfsClose hc
        have hi₂ : ¬ Foreign s₂.base.pid (s₂.openFiles i) := by
          rw [hk₁.pid]
          rcases hdup.target with ⟨-, rfl⟩ | ⟨-, q, hc⟩
          · exact hti
          · rcases vfsClose_cases hc with rfl | ⟨k, hslot, -, -, ho⟩
            · exact hti
            · rw [slotOf_asInt] at hslot
              cases hslot
              rw [ho, Function.update_self]
              rintro ⟨hpres, -⟩
              rw [closed_present] at hpres
              cases hpres
        have hkept := hdup.kept
        have hk₂ : Keeping (fun _ => False) s₂ s' :=
          hk₁.iso.copy (j := j) (by rw [hkept]; exact hdup.source)
            (by rw [hkept, hk₁.pid]; exact hsource j hj) hi₂ (by rw [hkept]; exact hdup.copy) hdup.table
        refine ⟨hk₂.iso, hk₁.spares.trans (hk₁.pid ▸ hk₂.spares), hk₂.pid.trans hk₁.pid, fun k hT hf => ?_⟩
        rcases hT with hT | hT
        · rw [hj] at hT
          cases hT
          exact absurd hf (hsource j hj hdup.source).1
        · rw [hi] at hT
          cases hT
          exact absurd hf hti
  case fstat fd statbuf =>
      obtain ⟨ho, ha⟩ := sysFstat_some h₁
      exact .of_aside h ho ha fun _ _ _ => disks_sysFstat h₁
  case fchmod fd mode =>
      obtain ⟨ho, ha⟩ := sysFchmod_some h₁
      exact .of_aside h ho ha fun i hT hf => absurd hf (hsafe i hT)
  case fchown fd uid gid =>
      obtain ⟨ho, ha⟩ := sysFchown_some h₁
      exact .of_aside h ho ha fun i hT hf => absurd hf (hsafe i hT)

end Calls

/-- **A step that meets the condition is isolated, and keeps the invariant.** -/
theorem Iso.step {s s' : State} {o : Op} (h : Iso s) (hsafe : Discreet s o)
    (hs : Vfs.step s o = some s') : Iso s' ∧ Isolated s o s' := by
  cases o with
  | call c call =>
      obtain ⟨⟨u, s₁⟩, hp, rfl⟩ := Option.map_eq_some_iff.mp hs
      have hrun : Iso (s.runAs c) := h.congr rfl rfl
      have hk := hrun.perform hsafe hp
      exact ⟨hk.iso, hk.spares, hk.iso.unaliased, hk.refused⟩
  | kernelOpen path addr =>
      obtain ⟨⟨r, s₁⟩, hp, rfl⟩ := Option.map_eq_some_iff.mp hs
      exact ⟨(h.vfsOpen hp).iso, trivial⟩
  | setWriteAll i =>
      cases hs
      exact ⟨⟨h.held.relabel rfl rfl ⟨rfl, rfl, rfl, rfl⟩, h.dirs.relabel rfl rfl rfl rfl rfl,
        h.writeAll_set rfl fun _ _ => hsafe⟩, trivial⟩
  | memory strings =>
      cases hs
      exact ⟨h.congr rfl rfl, trivial⟩

/-- **Descriptor isolation.**  From an empty table, in every run whose steps meet the condition, every
call leaves the descriptors of the other processes alone, does nothing through them, and gains none of
what they hold. -/
theorem descriptors_isolated {s : State} {os : List Op} (hfresh : Fresh s)
    (hsafe : Meets step Discreet s os) : Along step Isolated s os := by
  have hinit : Iso s :=
    ⟨hfresh.held, .of_fresh hfresh, fun i hp => by rw [hfresh.empty] at hp; cases hp⟩
  exact along_of_inv (fun _ _ _ hI hC hs => hI.step hC hs) hinit hsafe

/-- Process 2 opens `/a`, duplicates and closes it while process 3 opens it too and tries to read, seek
and close the other's descriptor. -/
def Tiny.isolatedRun : List Op :=
  let two : List Slot := ((List.finRange maxProcesses)[1]?).toList
  let three : List Slot := ((List.finRange maxProcesses)[2]?).toList
  two.flatMap (fun c => [.call c (.open 2 0 (some 0) []), .call c (.dup 0 (some 1)),
    .call c (.dup2 0 1 (some 2))]) ++
  three.flatMap (fun c => [.call c (.open 2 0 (some 3) []), .call c (.read 0 3 {}),
    .call c (.lseek 1 1), .call c (.close 0), .call c (.read 2 3 {})]) ++
  two.flatMap fun c => [.call c (.read 1 3 {}), .call c (.close 0)]

theorem descriptors_isolated_isolatedRun : Meets step Discreet Tiny.files Tiny.isolatedRun ∧
    (run step Tiny.files Tiny.isolatedRun).isSome ∧
    Along step Isolated Tiny.files Tiny.isolatedRun := by
  have hsafe : Meets step Discreet Tiny.files Tiny.isolatedRun := by decide +kernel
  exact ⟨hsafe, by decide +kernel, descriptors_isolated ⟨fun _ => rfl, rfl⟩ hsafe⟩

/-- Process 2 opens `/a`, and process 3 opens it too. -/
def Tiny.bothOpen : List Op :=
  ((List.finRange maxProcesses)[1]?).toList.flatMap (fun c => [.call c (.open 2 0 (some 0) [])]) ++
  ((List.finRange maxProcesses)[2]?).toList.flatMap fun c => [.call c (.open 2 0 (some 1) [])]

/-- `sys_dup2` over a descriptor of another process: its `VFS_Close` is refused, and the slot is
overwritten all the same. -/
theorem dup2_takes_slot : ∃ s os, Fresh s ∧ ¬ Along step Isolated s os := by
  have hrun : (((List.finRange maxProcesses)[2]?).bind fun c => (slot64 0).bind fun i =>
      (run step Tiny.files Tiny.bothOpen).bind fun s₁ =>
        (step s₁ (.call c (.dup2 1 0 (some 2)))).map fun s₂ =>
          (decide (Foreign (s₁.base.runAs c).pid (s₁.openFiles i)),
            decide ((s₂.openFiles i).pid = (s₁.openFiles i).pid))) = some (true, false) := by
    decide +kernel
  obtain ⟨c, -, hrun⟩ := Option.bind_eq_some_iff.mp hrun
  obtain ⟨i, -, hrun⟩ := Option.bind_eq_some_iff.mp hrun
  obtain ⟨s₁, h₁, hrun⟩ := Option.bind_eq_some_iff.mp hrun
  obtain ⟨s₂, h₂, hval⟩ := Option.map_eq_some_iff.mp hrun
  simp only [Prod.mk.injEq, decide_eq_true_eq, decide_eq_false_iff_not] at hval
  obtain ⟨hforeign, hpid⟩ := hval
  refine ⟨Tiny.files, Tiny.bothOpen ++ [.call c (.dup2 1 0 (some 2))], ⟨fun _ => rfl, rfl⟩, fun h => ?_⟩
  have hlast := along_last h h₁ h₂
  exact hpid (by rw [(hlast.1 i hforeign).1])

end Blackmount.Vfs
