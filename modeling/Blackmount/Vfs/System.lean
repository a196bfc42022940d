import Blackmount.Vfs.Effects
import Blackmount.Lib.Run

/-!
# Vfs — processes and their descriptors

Processes make system calls on files in any order, the kernel opens files for them, and between the
calls they write their own memory, the path strings in it included.  A run starts with an empty table.

`Owned` is the table's hold on the objects it points to: the pointers of the slots in use are valid
and no two are the same.  `Held P` says so of the files, and that each satisfies `P` for the process
its slot belongs to.  The lemmas below say what each kind of call needs to keep it.
-/

namespace Blackmount.Vfs
open Blackmount.Lib Blackmount.Ext2 Blackmount.User Blackmount.Proc Blackmount.Net

/-! ### The machine -/

inductive Call where
  | open (path flags : UInt64) (addr : Option Nat) (stack : Name)
  | close (fd : UInt64)
  | lseek (fd offset : UInt64)
  | read (fd count : UInt64) (frame : Registers)
  | readv (fd iov : UInt64) (vs : List IoVec) (frame : Registers)
  | write (fd : UInt64) (data : List UInt8) (frame : Registers)
  | writev (fd iov : UInt64) (copied : Except Errno (List OutVec)) (frame : Registers)
  | getdents64 (fd buf : UInt64) (size : Nat)
  | dup (fd : UInt64) (addr : Option Nat)
  | dup2 (oldfd newfd : UInt64) (addr : Option Nat)
  | fstat (fd statbuf : UInt64)
  | fchmod (fd mode : UInt64)
  | fchown (fd uid gid : UInt64)

def Call.perform : Call → VfsM Unit
  | .open path flags addr stack => do let _ ← sysOpen path flags addr stack
  | .close fd => do let _ ← sysClose fd
  | .lseek fd offset => do let _ ← sysLseek fd offset
  | .read fd count frame => do let _ ← sysRead fd count frame
  | .readv fd iov vs frame => do let _ ← sysReadv fd iov vs frame
  | .write fd data frame => do let _ ← sysWrite fd data frame
  | .writev fd iov copied frame => do let _ ← sysWritev fd iov copied frame
  | .getdents64 fd buf size => do let _ ← sysGetdents64 fd buf size
  | .dup fd addr => do let _ ← sysDup fd addr
  | .dup2 oldfd newfd addr => do let _ ← sysDup2 oldfd newfd addr
  | .fstat fd statbuf => do let _ ← sysFstat fd statbuf
  | .fchmod fd mode => do let _ ← sysFchmod fd mode
  | .fchown fd uid gid => do let _ ← sysFchown fd uid gid

inductive Op where
  /-- The process in the slot makes a call. -/
  | call (c : Slot) (call : Call)
  /-- `VFS_Open(path, true)` in the kernel's own code. -/
  | kernelOpen (path : UInt64) (addr : Option Nat)
  /-- `setwriteall`. -/
  | setWriteAll (i : Fd)
  /-- Processes have written their memory. -/
  | memory (strings : Option Nat → UInt64 → Name)

/-- The process in slot `c` runs, in its address space. -/
def Base.runAs (b : Base) (c : Slot) : Base :=
  { b with net := { b.net with proc := { b.net.proc with
      currentProc := some c
      cr3 := (b.net.proc.procTable c).addressSpace } } }

def State.runAs (s : State) (c : Slot) : State := { s with base := s.base.runAs c }

def step (s : State) : Op → Option State
  | .call c call => (call.perform (s.runAs c)).map Prod.snd
  | .kernelOpen path addr => (vfsOpen path true true addr s).map Prod.snd
  | .setWriteAll i => some { s with
      openFiles := Function.update s.openFiles i { s.openFiles i with writeAll := true } }
  | .memory strings => some { s with base := { s.base with strings := strings } }

/-- The table before anything is opened. -/
structure Fresh (s : State) : Prop where
  empty : ∀ i, (s.openFiles i).present = false
  log : s.base.log = []

/-! ### Objects in the table -/

/-- The pointers `ptr` of the slots in use are valid: each points to an object that satisfies `Q` for
the process the slot belongs to, and no two to the same. -/
structure Owned (ptr : VfsFile → Option Nat) (Q : Int32 → Obj → Prop) (s : State) : Prop where
  valid : ∀ i a, (s.openFiles i).present = true → ptr (s.openFiles i) = some a →
    ∃ o, s.base.heap a = some o ∧ Q (s.openFiles i).pid o
  unshared : ∀ i j a, (s.openFiles i).present = true → (s.openFiles j).present = true →
    ptr (s.openFiles i) = some a → ptr (s.openFiles j) = some a → i = j

namespace Owned

variable {ptr : VfsFile → Option Nat} {Q : Int32 → Obj → Prop} {s s' : State}

theorem of_fresh (h : Fresh s) : Owned ptr Q s := by
  refine ⟨fun i a hp => ?_, fun i j a hp => ?_⟩ <;> (rw [h.empty] at hp; cases hp)

theorem congr (h : Owned ptr Q s) (ho : s'.openFiles = s.openFiles)
    (hh : s'.base.heap = s.base.heap) : Owned ptr Q s' :=
  ⟨by rw [ho, hh]; exact h.valid, by rw [ho]; exact h.unshared⟩

/-- Calls that only move handles and iterators. -/
theorem mild {A : Nat → Prop} (h : Owned ptr Q s)
    (hQ : ∀ pid o o', SameKind (some o) (some o') → Q pid o → Q pid o')
    (hm : Mild A s.base s'.base) (ho : s'.openFiles = s.openFiles) : Owned ptr Q s' := by
  refine ⟨fun i a => ?_, by rw [ho]; exact h.unshared⟩
  rw [ho]
  intro hp ha
  obtain ⟨o, hh, hQo⟩ := h.valid i a hp ha
  have hk := hm.kind a
  rw [hh] at hk
  cases hh' : s'.base.heap a with
  | none => rw [hh'] at hk; rcases o with f | d <;> cases hk
  | some o' =>
      rw [hh'] at hk
      exact ⟨o', rfl, hQ _ o o' hk hQo⟩

/-- A slot gets new contents, and the objects of the others stay. -/
theorem set {i : Fd} {x : VfsFile} (h : Owned ptr Q s)
    (ho : s'.openFiles = Function.update s.openFiles i x)
    (hkeep : ∀ j a o, j ≠ i → (s.openFiles j).present = true → ptr (s.openFiles j) = some a →
      s.base.heap a = some o → s'.base.heap a = some o)
    (hx : ∀ a, x.present = true → ptr x = some a →
      (∃ o, s'.base.heap a = some o ∧ Q x.pid o) ∧
        ∀ j, j ≠ i → (s.openFiles j).present = true → ptr (s.openFiles j) ≠ some a) :
    Owned ptr Q s' := by
  have hself : s'.openFiles i = x := by rw [ho, Function.update_self]
  have hother : ∀ j, j ≠ i → s'.openFiles j = s.openFiles j := fun j hj => by
    rw [ho, Function.update_of_ne hj]
  refine ⟨fun j a hp hf => ?_, fun j k a hj hk hfj hfk => ?_⟩
  · by_cases e : j = i
    · rw [e, hself] at hp hf ⊢
      exact (hx a hp hf).1
    · rw [hother j e] at hp hf ⊢
      obtain ⟨o, hh, hQo⟩ := h.valid j a hp hf
      exact ⟨o, hkeep j a o e hp hf hh, hQo⟩
  · by_cases ej : j = i
    · by_cases ek : k = i
      · rw [ej, ek]
      · rw [ej, hself] at hj hfj
        rw [hother k ek] at hk hfk
        exact absurd hfk ((hx a hj hfj).2 k ek hk)
    · by_cases ek : k = i
      · rw [ek, hself] at hk hfk
        rw [hother j ej] at hj hfj
        exact absurd hfj ((hx a hk hfk).2 j ej hj)
      · rw [hother j ej] at hj hfj
        rw [hother k ek] at hk hfk
        exact h.unshared j k a hj hk hfj hfk

/-- A slot keeps its pointer and its owner. -/
theorem relabel {i : Fd} {x : VfsFile} (h : Owned ptr Q s)
    (ho : s'.openFiles = Function.update s.openFiles i x) (hh : s'.base.heap = s.base.heap)
    (hp : x.present = (s.openFiles i).present) (hptr : ptr x = ptr (s.openFiles i))
    (hpid : x.pid = (s.openFiles i).pid) : Owned ptr Q s' := by
  refine h.set ho (fun j a o _ _ _ hf => by rw [hh, hf]) fun a h' ha => ?_
  rw [hptr] at ha
  rw [hpid, hh]
  exact ⟨h.valid i a (hp ▸ h') ha, fun j hj hpj hfj => hj (h.unshared j i a hpj (hp ▸ h') hfj ha)⟩

/-- A slot gets an object of its own, newly allocated, or none; the heap only grows. -/
theorem gain {i : Fd} {x : VfsFile} (h : Owned ptr Q s)
    (ho : s'.openFiles = Function.update s.openFiles i x) (hgrow : Grows s.base s'.base)
    (hx : ∀ a, ptr x = some a → s.base.heap a = none ∧ ∃ o, s'.base.heap a = some o ∧ Q x.pid o) :
    Owned ptr Q s' := by
  refine h.set ho (fun j a o _ _ _ hh => hgrow a o hh) fun a _ ha => ?_
  obtain ⟨hfree, hnew⟩ := hx a ha
  refine ⟨hnew, fun j _ hp ha' => ?_⟩
  obtain ⟨o, hh, -⟩ := h.valid j a hp ha'
  rw [hfree] at hh
  cases hh

/-- A slot is closed, and what is given back was its own, or is none of these objects. -/
theorem lose {i : Fd} (h : Owned ptr Q s)
    (ho : s'.openFiles = Function.update s.openFiles i (s.openFiles i).closed)
    (hp : (s.openFiles i).present = true)
    (hfree : ∀ a o, s.base.heap a = some o → s'.base.heap a ≠ some o →
      ptr (s.openFiles i) = some a ∨ ∀ pid, ¬ Q pid o) : Owned ptr Q s' := by
  refine h.set ho (fun j a o hj hpj ha hh => ?_) fun a hp => ?_
  · by_contra hne
    rcases hfree a o hh hne with hi | hno
    · exact hj (h.unshared j i a hpj hp ha hi)
    · obtain ⟨o', hh', hQ⟩ := h.valid j a hpj ha
      rw [hh] at hh'
      cases hh'
      exact hno _ hQ
  · rw [closed_present] at hp
    cases hp

end Owned

/-- An open file that satisfies `P` for the process. -/
def FileFor (P : Int32 → OpenFile → Prop) (pid : Int32) (o : Obj) : Prop := ∃ f, o = .file f ∧ P pid f

/-- A directory iterator. -/
def AnyDir (_ : Int32) (o : Obj) : Prop := ∃ d, o = .dir d

/-- `P` looks at what a file was opened for, not at where its handle stands. -/
def Grants (P : Int32 → OpenFile → Prop) : Prop := ∀ pid f file, P pid f → P pid { f with file := file }

theorem Grants.fileFor {P : Int32 → OpenFile → Prop} (hP : Grants P) (pid : Int32) (o o' : Obj)
    (hk : SameKind (some o) (some o')) (h : FileFor P pid o) : FileFor P pid o' := by
  obtain ⟨f, rfl, hf⟩ := h
  cases o' with
  | file f' =>
      have e : f' = { f with file := f'.file } := hk
      exact ⟨f', rfl, by rw [e]; exact hP _ _ _ hf⟩
  | dir d => cases hk

theorem anyDir_kind (pid : Int32) (o o' : Obj) (hk : SameKind (some o) (some o')) (h : AnyDir pid o) :
    AnyDir pid o' := by
  obtain ⟨d, rfl⟩ := h
  cases o' with
  | file f => cases hk
  | dir d' => exact ⟨d', rfl⟩

/-- No slot in use is a socket. -/
def Plain (s : State) : Prop := ∀ i, (s.openFiles i).present = true → (s.openFiles i).isSocket = false

theorem Plain.set {s s' : State} {i : Fd} {x : VfsFile} (h : Plain s)
    (ho : s'.openFiles = Function.update s.openFiles i x)
    (hx : x.present = true → x.isSocket = false) : Plain s' := by
  intro j
  rw [ho]
  by_cases e : j = i
  · rw [e, Function.update_self]
    exact hx
  · rw [Function.update_of_ne e]
    exact h j

/-- No slot is a socket, and every file in the table is open, belongs to one slot only, and satisfies
`P` for the process that slot belongs to. -/
structure Held (P : Int32 → OpenFile → Prop) (s : State) : Prop where
  plain : Plain s
  files : Owned VfsFile.file (FileFor P) s

section Held

variable {P : Int32 → OpenFile → Prop} {s s' : State}

theorem Fresh.held (h : Fresh s) : Held P s :=
  ⟨fun i hp => absurd hp (by rw [h.empty]; simp), .of_fresh h⟩

theorem Held.file (h : Held P s) {i : Fd} {a : Nat} (hp : (s.openFiles i).present = true)
    (ha : (s.openFiles i).file = some a) :
    ∃ f, s.base.heap a = some (.file f) ∧ P (s.openFiles i).pid f := by
  obtain ⟨o, hh, f, rfl, hf⟩ := h.files.valid i a hp ha
  exact ⟨f, hh, hf⟩

theorem Held.congr (h : Held P s) (ho : s'.openFiles = s.openFiles) (hh : s'.base.heap = s.base.heap) :
    Held P s' :=
  ⟨by rw [Plain, ho]; exact h.plain, h.files.congr ho hh⟩

theorem Held.mild {A : Nat → Prop} (h : Held P s) (hP : Grants P) (hm : Mild A s.base s'.base)
    (ho : s'.openFiles = s.openFiles) : Held P s' :=
  ⟨by rw [Plain, ho]; exact h.plain, h.files.mild hP.fileFor hm ho⟩

theorem Held.relabel {i : Fd} {x : VfsFile} (h : Held P s)
    (ho : s'.openFiles = Function.update s.openFiles i x) (hh : s'.base.heap = s.base.heap)
    (hx : x.present = (s.openFiles i).present ∧ x.isSocket = (s.openFiles i).isSocket ∧
      x.file = (s.openFiles i).file ∧ x.pid = (s.openFiles i).pid) : Held P s' := by
  obtain ⟨hp, hs, hf, hpid⟩ := hx
  exact ⟨h.plain.set ho fun h' => by rw [hs]; exact h.plain i (hp ▸ h'), h.files.relabel ho hh hp hf hpid⟩

/-- What `VFS_Close` gives back of files was the slot's own. -/
theorem release_file {x : VfsFile} {b b' : Base} {u : Unit} (hs : x.isSocket = false)
    (h : release x b = some (u, b')) {a : Nat} {o : Obj} (ha : b.heap a = some o)
    (hne : b'.heap a ≠ some o) (P : Int32 → OpenFile → Prop) :
    x.file = some a ∨ ∀ pid, ¬ FileFor P pid o := by
  rcases release_some hs h with ⟨a', d, -, hfrees⟩ | ⟨a', f, hf, hfrees⟩ | ⟨-, e⟩
  · by_cases e : a = a'
    · right
      rintro pid ⟨f, rfl, -⟩
      rw [e, hfrees.was] at ha
      cases ha
    · rw [hfrees.heap, Function.update_of_ne e] at hne
      exact absurd ha hne
  · by_cases e : a = a'
    · exact .inl (e ▸ hf)
    · rw [hfrees.heap, Function.update_of_ne e] at hne
      exact absurd ha hne
  · rw [e] at hne
    exact absurd ha hne

theorem Held.lose {i : Fd} (h : Held P s)
    (ho : s'.openFiles = Function.update s.openFiles i (s.openFiles i).closed)
    (hp : (s.openFiles i).present = true) {u : Unit}
    (hr : release (s.openFiles i) s.base = some (u, s'.base)) : Held P s' := by
  refine ⟨h.plain.set ho fun h' => ?_, h.files.lose ho hp fun a o ha hne => ?_⟩
  · rw [closed_present] at h'
    cases h'
  · exact release_file (h.plain i hp) hr ha hne P

end Held

/-! ### The calls that open and close -/

section Calls

variable {P : Int32 → OpenFile → Prop} {s s' : State}

/-- What `VFS_Open` opens must satisfy `P` for the process its slot is labelled with. -/
theorem held_vfsOpen {path : UInt64} {privileged byKernel : Bool} {addr : Option Nat} {r : Int32}
    (h : Held P s) (hopen : vfsOpen path privileged byKernel addr s = some (r, s'))
    (hnew : ∀ f, MayOpen (s.base.str path) privileged s.base →
      f.readers = (openGrant s.base (s.base.str path) byKernel).readers →
      f.writers = (openGrant s.base (s.base.str path) byKernel).writers → f.byKernel = byKernel →
      P (if privileged then -1 else s.base.pid) f) : Held P s' := by
  obtain ⟨-, -, ⟨ho, hh⟩ | ⟨i, o, hfill⟩⟩ := vfsOpen_cases hopen
  · exact h.congr ho hh
  · have hobt := hfill.obtains
    refine ⟨h.plain.set hfill.table fun _ => fill_isSocket _, ?_⟩
    cases hobt with
    | dir may adds fs opened =>
        exact h.files.gain hfill.table adds.grows fun a ha => (by cases ha)
    | file may adds opened =>
        refine h.files.gain hfill.table adds.grows fun a ha => ?_
        cases ha
        refine ⟨adds.fresh, _, by rw [adds.heap, Function.update_self], _, rfl, ?_⟩
        rw [fill_pid]
        exact hnew _ may opened.readers opened.writers opened.byKernel

/-- What a copied slot opens again must satisfy `P` for the caller. -/
theorem held_copy {i j : Fd} {y : VfsFile} {addr : Option Nat} (h : Held P s)
    (hj : (s.openFiles j).present = true)
    (hcopy : copySlot (s.openFiles j) addr s.base = some (y, s'.base))
    (ho : s'.openFiles = Function.update s.openFiles i y)
    (hnew : ∀ p f, (s.openFiles j).path = some p →
      f.readers = (reopenGrant s.base (s.base.str p)).readers →
      f.writers = (reopenGrant s.base (s.base.str p)).writers → P s.base.pid f) : Held P s' := by
  obtain ⟨-, hy, hfile⟩ := copySlot_some hcopy
  have hplain : y.isSocket = false := by rw [hy]; exact h.plain j hj
  have hpid : y.pid = s.base.pid := by rw [hy]
  refine ⟨h.plain.set ho fun _ => hplain, ?_⟩
  rcases hfile with ⟨hnone, hheap⟩ | ⟨p, a, f, hp, ha, hadds, hopened⟩
  · refine h.files.gain ho (fun a o ha => by rw [hheap, ha]) fun a ha => ?_
    rw [hnone] at ha
    cases ha
  · refine h.files.gain ho hadds.grows fun a' ha' => ?_
    rw [ha] at ha'
    cases ha'
    refine ⟨hadds.fresh, _, by rw [hadds.heap, Function.update_self], f, rfl, ?_⟩
    rw [hpid]
    exact hnew p f hp hopened.readers hopened.writers

end Calls

/-! ### The calls through a descriptor -/

section Through

variable {s s' : State}

/-- `VFS_Read` reads the file of the descriptor, when the slot is the caller's or the kernel's. -/
theorem vfsRead_some {fd : Int32} {count : Nat} {frame : Registers} {r : Option Int32 × List UInt8}
    (hs : Plain s) (h : vfsRead fd count frame s = some (r, s')) :
    s'.openFiles = s.openFiles ∧ (Idle s.base s'.base ∨
      ∃ i a f f', slotOf fd = some i ∧ (s.openFiles i).present = true ∧
        ((s.openFiles i).pid = -1 ∨ (s.openFiles i).pid = s.base.pid) ∧
        (s.openFiles i).file = some a ∧ Transfers a f f' (.read s.base.owner f r.2) s.base s'.base) := by
  simp only [vfsRead] at h
  cases hi : slotOf fd with
  | none =>
      rw [hi] at h
      cases h
      exact ⟨rfl, .inl (.refl _)⟩
  | some i =>
      rw [hi] at h
      simp only [get_bind] at h
      obtain ⟨hb, ho⟩ := onBase_some h
      refine ⟨ho, ?_⟩
      rcases readSlot_some (hs i) hb with hidle | ⟨hp, hpid, a, f, f', ha, ht, -⟩
      · exact .inl hidle
      · exact .inr ⟨i, a, f, f', rfl, hp, hpid, ha, ht⟩

/-- `VFS_Write` stops at its checks, calls a device, or writes to the file of the descriptor. -/
theorem vfsWrite_some {fd : Int32} {data : List UInt8} {privileged : Bool} {frame : Registers}
    {r : Option Int32} (hs : Plain s) (h : vfsWrite fd data privileged frame s = some (r, s')) :
    s'.openFiles = s.openFiles ∧ (Aside Event.isLookup s.base s'.base ∨
      ∃ i b₁, slotOf fd = some i ∧ WriteCheck (s.openFiles i) privileged s.base b₁ ∧
        (Idle b₁ s'.base ∨ ∃ a f f', (s.openFiles i).file = some a ∧
          Transfers a f f' (.write b₁.owner f (data.take (u32 data.length))) b₁ s'.base ∧
          ∃ σ σ' res, b₁.fss f.fs = some σ ∧
            ext2Write f.file (Name.bytes data) (u32 data.length) σ = some ((res, f'.file), σ') ∧
            s'.base.fss = Function.update b₁.fss f.fs (some σ'))) := by
  simp only [vfsWrite] at h
  cases hi : slotOf fd with
  | none =>
      rw [hi] at h
      cases h
      exact ⟨rfl, .inl (.refl _)⟩
  | some i =>
      rw [hi] at h
      simp only [get_bind] at h
      obtain ⟨hb, ho⟩ := onBase_some h
      refine ⟨ho, ?_⟩
      rcases writeSlot_some (hs i) hb with haside | ⟨b₁, hcheck, hrest⟩
      · exact .inl haside
      · exact .inr ⟨i, b₁, rfl, hcheck, hrest⟩

theorem vfsSetPos_some {fd : Int32} {pos : UInt32} {privileged : Bool} {r : Int32}
    (h : vfsSetPos fd pos privileged s = some (r, s')) :
    s'.openFiles = s.openFiles ∧ s'.base.log = s.base.log ∧ (s'.base = s.base ∨
      ∃ i a, slotOf fd = some i ∧ (s.openFiles i).present = true ∧
        (privileged = true ∨ (s.openFiles i).pid = s.base.pid) ∧ (s.openFiles i).file = some a ∧
        Mild (· = a) s.base s'.base) := by
  simp only [vfsSetPos] at h
  cases hi : slotOf fd with
  | none =>
      rw [hi] at h
      cases h
      exact ⟨rfl, rfl, .inl rfl⟩
  | some i =>
      rw [hi] at h
      simp only [get_bind] at h
      obtain ⟨hb, ho⟩ := onBase_some h
      rcases setPosSlot_some hb with e | ⟨hp, hpid, a, f, file, ha, hf, -, e⟩
      · exact ⟨ho, by rw [e], .inl e⟩
      · refine ⟨ho, by rw [e], .inr ⟨i, a, rfl, hp, hpid, ha, ?_⟩⟩
        rw [e]
        refine mild_setFile hf ?_ ⟨rfl, rfl, rfl, rfl, rfl⟩ rfl
        rfl

theorem vfsGetDents64_some {fd : Int32} {count : Nat} {r : Int32 × List DirEntry}
    (h : vfsGetDents64 fd count s = some (r, s')) :
    s'.openFiles = s.openFiles ∧ s'.base.log = s.base.log ∧ (s'.base = s.base ∨
      ∃ i a, slotOf fd = some i ∧ (s.openFiles i).present = true ∧ (s.openFiles i).isDir = true ∧
        (s.openFiles i).pid = s.base.pid ∧ (s.openFiles i).dirIter = some a ∧
        Mild (· = a) s.base s'.base) := by
  simp only [vfsGetDents64] at h
  cases hi : slotOf fd with
  | none =>
      rw [hi] at h
      cases h
      exact ⟨rfl, rfl, .inl rfl⟩
  | some i =>
      rw [hi] at h
      simp only [get_bind] at h
      obtain ⟨hb, ho⟩ := onBase_some h
      rcases getdentsSlot_some hb with e | ⟨hp, hdir, hpid, hlog, a, d, d', ha, hd, hfs, hout, hheap⟩
      · exact ⟨ho, by rw [e], .inl e⟩
      · exact ⟨ho, hlog, .inr ⟨i, a, rfl, hp, hdir, hpid, ha, mild_setDir hd hfs hout hheap⟩⟩

/-! ### The calls on the path of a descriptor -/

theorem aside_onRoot {α : Type} (path : Name) (null : α) (m : Ext2M α) :
    AsideM Event.isLookup (onRoot path null m) :=
  aside_get.bind fun _ => (aside_onPath _ _ _ _).mono fun _ he => he.isLookup

theorem aside_sysChmod (p mode : UInt64) : AsideM Event.isLookup (sysChmod p mode) :=
  .ite (aside_pure _) (aside_get.bind fun _ => (aside_onRoot _ _ _).bind fun _ =>
    .ite (aside_pure _) (aside_pure _))

theorem aside_sysChown (p uid gid : UInt64) : AsideM Event.isLookup (sysChown p uid gid) :=
  .ite (aside_pure _) (aside_get.bind fun _ => (aside_onRoot _ _ _).bind fun _ =>
    .ite (aside_pure _) (aside_pure _))

theorem sysFstat_some {fd statbuf : UInt64} {r : UInt64 × Option Inode}
    (h : sysFstat fd statbuf s = some (r, s')) :
    s'.openFiles = s.openFiles ∧ Aside Event.isLookup s.base s'.base := by
  simp only [sysFstat] at h
  split at h
  · cases h; exact ⟨rfl, .refl _⟩
  · rw [get_bind] at h
    cases hp : pathOf s fd with
    | none =>
        rw [hp] at h
        cases h
        exact ⟨rfl, .refl _⟩
    | some p =>
        rw [hp] at h
        simp only [get_bind] at h
        obtain ⟨x, s₁, h₁, h₂⟩ := bind_some.mp h
        obtain ⟨hb, ho⟩ := onBase_some h₁
        have hs : s' = s₁ := by cases x <;> (cases h₂; rfl)
        rw [hs]
        exact ⟨ho, aside_onRoot _ _ _ _ _ _ hb⟩

theorem sysFchmod_some {fd mode r : UInt64} (h : sysFchmod fd mode s = some (r, s')) :
    s'.openFiles = s.openFiles ∧ Aside Event.isLookup s.base s'.base := by
  rw [sysFchmod, get_bind] at h
  cases hp : pathOf s fd with
  | none =>
      rw [hp] at h
      cases h
      exact ⟨rfl, .refl _⟩
  | some p =>
      rw [hp] at h
      obtain ⟨hb, ho⟩ := onBase_some h
      exact ⟨ho, aside_sysChmod _ _ _ _ _ hb⟩

theorem sysFchown_some {fd uid gid r : UInt64} (h : sysFchown fd uid gid s = some (r, s')) :
    s'.openFiles = s.openFiles ∧ Aside Event.isLookup s.base s'.base := by
  rw [sysFchown, get_bind] at h
  cases hp : pathOf s fd with
  | none =>
      rw [hp] at h
      cases h
      exact ⟨rfl, .refl _⟩
  | some p =>
      rw [hp] at h
      obtain ⟨hb, ho⟩ := onBase_some h
      exact ⟨ho, aside_sysChown _ _ _ _ _ _ hb⟩

/-- `sys_open` creates the file first when it is asked to, and then opens it. -/
theorem sysOpen_some {path flags r : UInt64} {addr : Option Nat} {stack : Name}
    (h : sysOpen path flags addr stack s = some (r, s')) :
    ∃ s₁, s₁.openFiles = s.openFiles ∧ Aside Event.isLookup s.base s₁.base ∧
      (s' = s₁ ∨ ∃ fd, vfsOpen path (opensPrivileged flags) false addr s₁ = some (fd, s')) := by
  simp only [sysOpen] at h
  split at h
  · cases h; exact ⟨s, rfl, .refl _, .inl rfl⟩
  · rw [get_bind] at h
    have hrest : ∀ {created : Int32} {s₁ : State},
        (if created < 0 then pure (serror .exist)
          else do
            let fd ← vfsOpen path (opensPrivileged flags) false addr
            if fd < 0 then pure (serror .noEnt) else pure (wide fd) : VfsM UInt64) s₁ = some (r, s') →
        s' = s₁ ∨ ∃ fd, vfsOpen path (opensPrivileged flags) false addr s₁ = some (fd, s') := by
      intro created s₁ h
      split at h
      · cases h; exact .inl rfl
      · obtain ⟨fd, s₂, h₃, h₄⟩ := bind_some.mp h
        have hs : s' = s₂ := by split at h₄ <;> (cases h₄; rfl)
        rw [hs]
        exact .inr ⟨fd, h₃⟩
    split at h
    · obtain ⟨created, s₁, h₁, h₂⟩ := bind_some.mp h
      obtain ⟨hb, ho⟩ := onBase_some h₁
      exact ⟨s₁, ho, (aside_vfsCreate hb).mono fun _ he => he.isLookup, hrest h₂⟩
    · obtain ⟨created, s₁, h₁, h₂⟩ := bind_some.mp h
      cases h₁
      exact ⟨s, rfl, .refl _, hrest h₂⟩

end Through

/-! ### The calls with a vector -/

section Vectors

variable {R : State → State → Prop} {fd : UInt64} {frame : Registers}

/-- `sys_readv` is one read after the other. -/
theorem keeps_sysReadv (hr : ∀ s, R s s) (ht : ∀ {a b c}, R a b → R b c → R a c)
    (hread : ∀ count, Keeps R (vfsRead (fdInt fd) count frame)) (iov : UInt64) (vs : List IoVec) :
    Keeps R (sysReadv fd iov vs frame) := by
  have hloop : ∀ total, Keeps R (readvLoop fd frame vs total) := by
    induction vs with
    | nil => exact fun _ => .pure hr _
    | cons v vs ih =>
        refine fun total => .ite (ih _) (.bind ht (hread _) fun p => ?_)
        obtain ⟨res, data⟩ := p
        cases res with
        | none => exact .none
        | some n => exact .ite (.pure hr _) (.ite (.pure hr _) (.bind ht (ih _) fun _ => .pure hr _))
  exact .ite (.pure hr _) (hloop 0)

theorem keeps_sysWritev (hr : ∀ s, R s s) (ht : ∀ {a b c}, R a b → R b c → R a c)
    (hwrite : ∀ data, Keeps R (vfsWrite (fdInt fd) data false frame)) (iov : UInt64)
    (copied : Except Errno (List OutVec)) : Keeps R (sysWritev fd iov copied frame) := by
  refine .ite (.pure hr _) ?_
  cases copied with
  | error e => exact .pure hr _
  | ok vs =>
      have hloop : ∀ total, Keeps R (writevLoop fd frame vs total) := by
        induction vs with
        | nil => exact fun _ => .pure hr _
        | cons v vs ih =>
            refine fun total => .ite (ih _) (.ite (.pure hr _) ?_)
            cases v.fetched with
            | error e => exact .pure hr _
            | ok data => exact .bindSome ht (hwrite data) .none fun n => .ite (.pure hr _) (ih _)
      exact hloop 0

end Vectors

end Blackmount.Vfs
