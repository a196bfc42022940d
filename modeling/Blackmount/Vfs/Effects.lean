import Blackmount.Vfs.Aside

/-!
# Vfs — what a call does to the heap

One lemma for each function of the VFS that touches the objects the table points to: which object it
adds, changes or gives back, and under which check.  Everything that is proved of runs uses these, and
not the functions' bodies.
-/

namespace Blackmount.Vfs
open Blackmount.Lib Blackmount.Ext2 Blackmount.User Blackmount.Proc Blackmount.Net

/-- The heap got the object `o` at `a`. -/
structure Adds (a : Nat) (o : Obj) (b b' : Base) : Prop where
  fresh : b.heap a = none
  heap : b'.heap = Function.update b.heap a (some o)

/-- No object was changed or given back. -/
def Grows (b b' : Base) : Prop := ∀ a o, b.heap a = some o → b'.heap a = some o

variable {b b' : Base} {a : Nat}

theorem Adds.grows {o : Obj} (h : Adds a o b b') : Grows b b' := by
  intro a' o' ha
  have hne : a' ≠ a := by
    rintro rfl
    rw [h.fresh] at ha
    cases ha
  rw [h.heap, Function.update_of_ne hne, ha]

/-- The object `o` at `a` was given back. -/
structure Frees (a : Nat) (o : Obj) (b b' : Base) : Prop where
  was : b.heap a = some o
  heap : b'.heap = Function.update b.heap a none

/-! ### What only reads the disks -/

theorem quiet_trans {x y z : Option Fs} (h₁ : Option.Rel Quiet x y) (h₂ : Option.Rel Quiet y z) :
    Option.Rel Quiet x z := by
  cases h₁ with
  | none => exact h₂
  | some hq =>
      cases h₂ with
      | some hq' => exact .some (hq.trans hq')

/-- Every disk is what it was. -/
def SameDisks (b b' : Base) : Prop := ∀ k, Option.Rel Quiet (b.fss k) (b'.fss k)

namespace SameDisks

theorem of_eq (h : b'.fss = b.fss) : SameDisks b b' := by
  intro k
  rw [h]
  cases b.fss k with
  | none => exact .none
  | some σ => exact .some (.refl σ)

theorem refl (b : Base) : SameDisks b b := .of_eq rfl

theorem trans {a b c : Base} (h₁ : SameDisks a b) (h₂ : SameDisks b c) : SameDisks a c := by
  intro k
  exact quiet_trans (h₁ k) (h₂ k)

/-- A file system was read. -/
theorem set {σ σ' : Fs} (hσ : b.fss a = some σ) (hq : Quiet σ σ') :
    SameDisks b { b with fss := Function.update b.fss a (some σ') } := by
  intro k
  by_cases e : k = a
  · subst e
    simp only [hσ, Function.update_self]
    exact .some hq
  · simp only [Function.update_of_ne e]
    exact refl b k

end SameDisks

abbrev DisksM {α : Type} (m : BaseM α) : Prop := Keeps SameDisks m

section DisksRules

variable {α β : Type}

theorem disks_pure (a : α) : DisksM (pure a) := .pure SameDisks.refl a

theorem disks_get : DisksM (get : BaseM Base) := .get SameDisks.refl

theorem DisksM.bind {m : BaseM α} {f : α → BaseM β} (hm : DisksM m) (hf : ∀ a, DisksM (f a)) :
    DisksM (m >>= f) :=
  Keeps.bind SameDisks.trans hm hf

theorem disks_runFs (a : Nat) {m : Ext2M α} (hm : Reads m) : DisksM (runFs a m) := by
  intro b r b' h
  obtain ⟨σ, σ', hσ, hx, rfl⟩ := runFs_some h
  exact .set hσ (hm _ _ _ hx)

theorem disks_onPath (fs : Option Nat) (path : Name) (null : α) {m : Ext2M α} (hm : Reads m) :
    DisksM (onPath fs path null m) := by
  cases fs with
  | none => exact disks_pure _
  | some a =>
      refine DisksM.bind (fun b r b' h => ?_) fun _ => disks_runFs a hm
      cases h
      exact .of_eq rfl

end DisksRules

/-! ### Permission -/

variable {fs addr r : Option Nat}

/-- What `vfs_access_ok` lets a caller without privilege do. -/
theorem vfsAccessOk_true {rel : Name} {mask : Nat}
    (h : vfsAccessOk fs rel mask false b = some (true, b')) :
    userIsRoot b.users (vfsCallerUid b) = true ∨ accessible b fs rel mask (vfsCallerUid b) = true := by
  simp only [vfsAccessOk, Bool.false_eq_true, if_false, get_bind] at h
  split at h
  · next hr => exact .inl hr
  · right
    obtain ⟨r, b₁, h₁, h₂⟩ := bind_some.mp h
    have hr : r.isOk = true := by
      have := congrArg (Option.map Prod.fst) h₂
      simpa using this
    cases fs with
    | none =>
        cases h₁
        cases hr
    | some a =>
        obtain ⟨u, b₂, hrec, hrun⟩ := bind_some.mp h₁
        cases hrec
        obtain ⟨σ, σ', hσ, hx, -⟩ := runFs_some hrun
        cases r with
        | error e => cases hr
        | ok u =>
            have hσ : b.fss a = some σ := hσ
            simp only [accessible, Option.bind_some, hσ, hx]

/-- Whom `VFS_Open` opens a path for. -/
def MayOpen (path : Name) (privileged : Bool) (b : Base) : Prop :=
  privileged = true ∨ userIsRoot b.users (vfsCallerUid b) = true ∨
    accessible b (resolveFs b path).1 (resolveFs b path).2 accessRead (vfsCallerUid b) = true

/-! ### Opening -/

theorem kmalloc_some {o : Obj}
    (h : kmalloc addr o b = some (r, b')) :
    (r = none ∧ b' = b) ∨ ∃ a, r = some a ∧ b.heap a = none ∧
      b' = { b with heap := Function.update b.heap a (some o) } := by
  simp only [kmalloc] at h
  split at h
  · cases h; exact .inl ⟨rfl, rfl⟩
  · next a =>
      split at h
      · cases h; exact .inl ⟨rfl, rfl⟩
      · next hf => cases h; exact .inr ⟨a, rfl, hf, rfl⟩

/-- A function with a path that found something looked on a file system. -/
theorem onPath_some {α : Type} {path : Name} {m : Ext2M (Option α)} {x : α}
    (h : onPath fs path none m b = some (some x, b')) :
    ∃ a σ σ', fs = some a ∧ b.fss a = some σ ∧ m σ = some (some x, σ') ∧ b'.fss a = some σ' := by
  cases fs with
  | none => cases h
  | some a =>
      obtain ⟨u, b₁, hrec, hrun⟩ := bind_some.mp h
      cases hrec
      obtain ⟨σ, σ', hσ, hx, rfl⟩ := runFs_some hrun
      exact ⟨a, σ, σ', rfl, hσ, hx, by simp⟩

/-- The file was opened on its file system, with the grant. -/
structure OpenedFile (fs : Option Nat) (path : Name) (g : Grant) (f : OpenFile) (b' : Base) : Prop where
  fs : fs = some f.fs
  readers : f.readers = g.readers
  writers : f.writers = g.writers
  byKernel : f.byKernel = g.byKernel
  opened : ∃ σ σ', ext2Open path σ = some (some f.file, σ') ∧ b'.fss f.fs = some σ'

theorem openAt_some {path : Name} {g : Grant}
    (h : openAt fs path g addr b = some (r, b')) :
    (r = none ∧ b'.heap = b.heap) ∨
      ∃ a f, r = some a ∧ Adds a (.file f) b b' ∧ OpenedFile fs path g f b' := by
  obtain ⟨f, b₁, h₁, h₂⟩ := bind_some.mp h
  have hheap := (aside_onPath _ _ _ _ _ _ _ h₁).heap
  cases f with
  | none =>
      cases fs <;> (cases h₂; exact .inl ⟨rfl, hheap⟩)
  | some f =>
      obtain ⟨k, σ, σ', rfl, hσ, hx, hσ'⟩ := onPath_some h₁
      rcases kmalloc_some h₂ with ⟨rfl, rfl⟩ | ⟨a, rfl, hfree, rfl⟩
      · exact .inl ⟨rfl, hheap⟩
      · rw [hheap] at hfree
        exact .inr ⟨a, ⟨k, f, g.readers, g.writers, g.byKernel⟩, rfl, ⟨hfree, by rw [← hheap]⟩, rfl, rfl,
          rfl, rfl, σ, σ', hx, hσ'⟩

theorem opendirAt_some {path : Name}
    (h : opendirAt fs path addr b = some (r, b')) :
    (r = none ∧ b'.heap = b.heap) ∨
      ∃ a d, r = some a ∧ fs = some d.fs ∧ Adds a (.dir d) b b' ∧
        ∃ σ σ', ext2Opendir path σ = some (some d.iter, σ') ∧ b'.fss d.fs = some σ' := by
  obtain ⟨i, b₁, h₁, h₂⟩ := bind_some.mp h
  have hheap := (aside_onPath _ _ _ _ _ _ _ h₁).heap
  cases i with
  | none =>
      cases fs <;> (cases h₂; exact .inl ⟨rfl, hheap⟩)
  | some i =>
      obtain ⟨k, σ, σ', rfl, hσ, hx, hσ'⟩ := onPath_some h₁
      rcases kmalloc_some h₂ with ⟨rfl, rfl⟩ | ⟨a, rfl, hfree, rfl⟩
      · exact .inl ⟨rfl, hheap⟩
      · rw [hheap] at hfree
        exact .inr ⟨a, ⟨k, i⟩, rfl, rfl, ⟨hfree, by rw [← hheap]⟩, σ, σ', hx, hσ'⟩

/-- For whom a path that is resolved by the mount table is opened. -/
def openGrant (b : Base) (path : Name) (byKernel : Bool) : Grant :=
  ⟨accessible b (resolveFs b path).1 (resolveFs b path).2 accessRead,
    accessible b (resolveFs b path).1 (resolveFs b path).2 accessWrite, byKernel⟩

/-- What `VFS_Open` has done to the heap by the time it looks for a slot. -/
inductive Obtains (path : Name) (privileged byKernel : Bool) (b b' : Base) : Except Errno Opening → Prop
  | refused {e : Errno} (heap : b'.heap = b.heap) : Obtains path privileged byKernel b b' (.error e)
  | dir {owner : Int32} {a : Nat} {d : OpenDir} (may : MayOpen path privileged b)
      (adds : Adds a (.dir d) b b') (fs : (resolveFs b path).1 = some d.fs)
      (opened : ∃ σ σ', ext2Opendir (resolveFs b path).2 σ = some (some d.iter, σ') ∧
        b'.fss d.fs = some σ') :
      Obtains path privileged byKernel b b' (.ok ⟨(resolveFs b path).1, owner, .dir a⟩)
  | file {owner : Int32} {a : Nat} {f : OpenFile} (may : MayOpen path privileged b)
      (adds : Adds a (.file f) b b')
      (opened : OpenedFile (resolveFs b path).1 (resolveFs b path).2 (openGrant b path byKernel) f b') :
      Obtains path privileged byKernel b b' (.ok ⟨(resolveFs b path).1, owner, .file a⟩)

variable {privileged byKernel : Bool}

theorem openObject_some {path : Name}
    {r : Except Errno Opening} (h : openObject path privileged byKernel addr b = some (r, b')) :
    Obtains path privileged byKernel b b' r := by
  rw [openObject, get_bind] at h
  simp only at h
  obtain ⟨ok, b₁, h₁, h⟩ := bind_some.mp h
  have hheap₁ := (aside_vfsAccessOk _ _ _ _ _ _ _ h₁).heap
  cases ok with
  | false =>
      cases h
      exact .refused hheap₁
  | true =>
      have hmay : MayOpen path privileged b := by
        cases privileged with
        | true => exact .inl rfl
        | false => exact .inr (vfsAccessOk_true h₁)
      simp only [Bool.not_true, Bool.false_eq_true, if_false] at h
      obtain ⟨isDir, b₂, h₂, h⟩ := bind_some.mp h
      have hheap₂ := (aside_statIsDir _ _ _ _ _ h₂).heap.trans hheap₁
      cases isDir with
      | true =>
          simp only [if_true] at h
          obtain ⟨o, b₃, h₃, h⟩ := bind_some.mp h
          rcases opendirAt_some h₃ with ⟨rfl, hheap₃⟩ | ⟨a, d, rfl, hfs, hadds, hopened⟩
          · cases h
            exact .refused (hheap₃.trans hheap₂)
          · cases h
            exact .dir hmay ⟨hheap₂ ▸ hadds.fresh, hheap₂ ▸ hadds.heap⟩ hfs hopened
      | false =>
          simp only [Bool.false_eq_true, if_false] at h
          obtain ⟨o, b₃, h₃, h⟩ := bind_some.mp h
          rcases openAt_some h₃ with ⟨rfl, hheap₃⟩ | ⟨a, f, rfl, hadds, hopened⟩
          · cases h
            exact .refused (hheap₃.trans hheap₂)
          · cases h
            exact .file hmay ⟨hheap₂ ▸ hadds.fresh, hheap₂ ▸ hadds.heap⟩ hopened

/-! ### Closing -/

theorem closeAt_some {u : Unit} (h : closeAt a b = some (u, b')) :
    ∃ f σ σ', Frees a (.file f) b b' ∧ b.fss f.fs = some σ ∧ ext2Close f.file σ = some ((), σ') ∧
      b'.fss = Function.update b.fss f.fs (some σ') := by
  obtain ⟨f, b₁, h₁, h₂⟩ := bind_some.mp h
  obtain ⟨v, b₂, h₃, h₄⟩ := bind_some.mp h₂
  obtain ⟨hf, rfl⟩ := fileAt_some h₁
  obtain ⟨σ, σ', hσ, hx, rfl⟩ := runFs_some h₃
  cases h₄
  exact ⟨f, σ, σ', ⟨hf, rfl⟩, hσ, hx, rfl⟩

theorem closedirAt_some {u : Unit} (h : closedirAt a b = some (u, b')) :
    ∃ d σ σ', Frees a (.dir d) b b' ∧ b.fss d.fs = some σ ∧ ext2Closedir d.iter σ = some ((), σ') ∧
      b'.fss = Function.update b.fss d.fs (some σ') := by
  obtain ⟨d, b₁, h₁, h₂⟩ := bind_some.mp h
  obtain ⟨v, b₂, h₃, h₄⟩ := bind_some.mp h₂
  obtain ⟨hd, rfl⟩ := dirAt_some h₁
  obtain ⟨σ, σ', hσ, hx, rfl⟩ := runFs_some h₃
  cases h₄
  exact ⟨d, σ, σ', ⟨hd, rfl⟩, hσ, hx, rfl⟩

variable {x : VfsFile}

/-- What `VFS_Close` gives back of a slot that is no socket: a directory iterator, a file, nothing. -/
theorem release_some {u : Unit} (hs : x.isSocket = false)
    (h : release x b = some (u, b')) :
    (∃ a d, x.dirIter = some a ∧ Frees a (.dir d) b b') ∨
      (∃ a f, x.file = some a ∧ Frees a (.file f) b b') ∨ (x.file = none ∧ b' = b) := by
  rcases release_cases hs with ⟨a, -, hi, e⟩ | ⟨a, -, hf, e⟩ | ⟨-, hf, e⟩
  · rw [e] at h
    obtain ⟨d, σ, σ', hfrees, -⟩ := closedirAt_some h
    exact .inl ⟨a, d, hi, hfrees⟩
  · rw [e] at h
    obtain ⟨f, σ, σ', hfrees, -⟩ := closeAt_some h
    exact .inr (.inl ⟨a, f, hf, hfrees⟩)
  · rw [e] at h
    cases h
    exact .inr (.inr ⟨hf, rfl⟩)

theorem outside_closeAt (a : Nat) : OutsideM (closeAt a) := by
  intro b u b' h
  obtain ⟨f, b₁, h₁, h₂⟩ := bind_some.mp h
  obtain ⟨v, b₂, h₃, h₄⟩ := bind_some.mp h₂
  obtain ⟨-, rfl⟩ := fileAt_some h₁
  obtain ⟨σ, σ', -, -, rfl⟩ := runFs_some h₃
  cases h₄
  exact ⟨rfl, rfl, rfl, rfl, rfl⟩

theorem outside_closedirAt (a : Nat) : OutsideM (closedirAt a) := by
  intro b u b' h
  obtain ⟨d, b₁, h₁, h₂⟩ := bind_some.mp h
  obtain ⟨v, b₂, h₃, h₄⟩ := bind_some.mp h₂
  obtain ⟨-, rfl⟩ := dirAt_some h₁
  obtain ⟨σ, σ', -, -, rfl⟩ := runFs_some h₃
  cases h₄
  exact ⟨rfl, rfl, rfl, rfl, rfl⟩

theorem outside_release (hs : x.isSocket = false) : OutsideM (release x) := by
  rcases release_cases hs with ⟨a, -, -, e⟩ | ⟨a, -, -, e⟩ | ⟨-, -, e⟩
  · rw [e]; exact outside_closedirAt a
  · rw [e]; exact outside_closeAt a
  · rw [e]; exact outside_pure ()

/-- The object `VFS_Open` found no slot for is gone again. -/
theorem discard_some {path : Name} {b b₁ b' : Base} {o : Opening} {u : Unit}
    (ho : Obtains path privileged byKernel b b₁ (.ok o)) (h : discard o.obj b₁ = some (u, b')) :
    b'.heap = b.heap ∧ SameOutside b₁ b' ∧ b'.log = b₁.log := by
  have hgone : ∀ {a : Nat} {o o' : Obj}, Adds a o b b₁ → Frees a o' b₁ b' → b'.heap = b.heap := by
    intro a o o' hadds hfrees
    rw [hfrees.heap, hadds.heap, Function.update_idem, ← hadds.fresh, Function.update_eq_self]
  cases ho with
  | dir may adds fs opened =>
      obtain ⟨d, σ, σ', hfrees, -⟩ := closedirAt_some h
      exact ⟨hgone adds hfrees, outside_closedirAt _ _ _ _ h, (unsaid_closedirAt _ _ _ _ h).log⟩
  | file may adds opened =>
      obtain ⟨f, σ, σ', hfrees, -⟩ := closeAt_some h
      exact ⟨hgone adds hfrees, outside_closeAt _ _ _ _ h, (unsaid_closeAt _ _ _ _ h).log⟩

/-- The slot `VFS_Open` found was filled, with what it had opened. -/
structure Fills (path : UInt64) (privileged byKernel : Bool) (i : Fd) (o : Opening) (s s' : State) :
    Prop where
  free : firstFree s = some i
  obtains : Obtains (s.base.str path) privileged byKernel s.base s'.base (.ok o)
  table : s'.openFiles = Function.update s.openFiles i
    (fill (s.openFiles i) path privileged s.base.pid (deviceGet s.base (s.base.str path)) o)

/-- `VFS_Open` fails and leaves the table and the heap as they were, or it fills a free slot. -/
theorem vfsOpen_cases {path : UInt64} {s s' : State}
    {r : Int32} (h : vfsOpen path privileged byKernel addr s = some (r, s')) :
    SameOutside s.base s'.base ∧ Logs Event.isLookup s.base s'.base ∧
      ((s'.openFiles = s.openFiles ∧ s'.base.heap = s.base.heap) ∨
        ∃ i o, Fills path privileged byKernel i o s s') := by
  by_cases hpath : opensByPath privileged (s.base.str path)
  · rw [vfsOpen_eq hpath] at h
    obtain ⟨⟨x, b⟩, hopen, h⟩ := Option.bind_eq_some_iff.mp h
    have hout := outside_openObject _ _ _ _ _ _ _ hopen
    have hlog := (logs_openObject hopen).mono fun _ he => he.isLookup
    have hobt := openObject_some hopen
    cases x with
    | error e =>
        cases h
        cases hobt with
        | refused heap => exact ⟨hout, hlog, .inl ⟨rfl, heap⟩⟩
    | ok o =>
        simp only at h
        cases hfree : firstFree s with
        | none =>
            rw [hfree] at h
            obtain ⟨⟨u, b'⟩, hd, he⟩ := Option.map_eq_some_iff.mp h
            cases he
            obtain ⟨hheap, hout', hlog'⟩ := discard_some hobt hd
            refine ⟨hout.trans hout', ⟨(hout.trans hout').rootfs, ?_⟩, .inl ⟨rfl, hheap⟩⟩
            simp only [hlog']
            exact hlog.log
        | some i =>
            rw [hfree] at h
            cases h
            exact ⟨hout, hlog, .inr ⟨i, o, hfree, hobt, rfl⟩⟩
  · rw [vfsOpen_special hpath] at h
    cases h
    exact ⟨.refl _, .refl _, .inl ⟨rfl, rfl⟩⟩

/-! ### Calls through a slot -/

/-- The object is what it was, but for where its handle or iterator stands. -/
def SameKind : Option Obj → Option Obj → Prop
  | none, none => True
  | some (.file f), some (.file f') => f' = { f with file := f'.file }
  | some (.dir d), some (.dir d') => d'.fs = d.fs
  | _, _ => False

theorem SameKind.refl (o : Option Obj) : SameKind o o := by
  rcases o with _ | ⟨f | d⟩ <;> simp [SameKind]

theorem SameKind.trans {o₁ o₂ o₃ : Option Obj} (h₁ : SameKind o₁ o₂) (h₂ : SameKind o₂ o₃) :
    SameKind o₁ o₃ := by
  rcases o₁ with _ | ⟨f₁ | d₁⟩ <;> rcases o₂ with _ | ⟨f₂ | d₂⟩ <;> rcases o₃ with _ | ⟨f₃ | d₃⟩ <;>
    simp only [SameKind] at h₁ h₂ ⊢
  · rw [h₂, h₁]
  · rw [h₂, h₁]

/-- A call that uses the objects at `A`: it moves their handles, and leaves the processes, the mounts
and all other objects alone. -/
structure Mild (A : Nat → Prop) (b b' : Base) : Prop extends SameOutside b b' where
  kind : ∀ a, SameKind (b.heap a) (b'.heap a)
  within : ∀ a, ¬ A a → b'.heap a = b.heap a

namespace Mild

variable {A : Nat → Prop} {b b' b'' : Base}

theorem refl (b : Base) : Mild A b b := ⟨.refl b, fun _ => .refl _, fun _ _ => rfl⟩

theorem trans (h₁ : Mild A b b') (h₂ : Mild A b' b'') : Mild A b b'' :=
  ⟨h₁.toSameOutside.trans h₂.toSameOutside, fun a => (h₁.kind a).trans (h₂.kind a),
    fun a ha => (h₂.within a ha).trans (h₁.within a ha)⟩

theorem of_heap (h : SameOutside b b') (hh : b'.heap = b.heap) : Mild A b b' :=
  ⟨h, fun a => by rw [hh]; exact .refl _, fun a _ => by rw [hh]⟩

end Mild

section MildCalls

variable {A : Nat → Prop}

/-- The file an address points to is replaced by one that stands elsewhere. -/
theorem mild_setFile {f f' : OpenFile} (hf : b.heap a = some (.file f))
    (hsame : f' = { f with file := f'.file }) (ho : SameOutside b b')
    (hh : b'.heap = Function.update b.heap a (some (.file f'))) : Mild (· = a) b b' := by
  refine ⟨ho, fun a' => ?_, fun a' ha => by rw [hh, Function.update_of_ne ha]⟩
  rw [hh]
  by_cases he : a' = a
  · rw [he, Function.update_self, hf]
    exact hsame
  · rw [Function.update_of_ne he]
    exact .refl _

theorem mild_setDir {d d' : OpenDir} (hd : b.heap a = some (.dir d))
    (hsame : d'.fs = d.fs) (ho : SameOutside b b')
    (hh : b'.heap = Function.update b.heap a (some (.dir d'))) : Mild (· = a) b b' := by
  refine ⟨ho, fun a' => ?_, fun a' ha => by rw [hh, Function.update_of_ne ha]⟩
  rw [hh]
  by_cases he : a' = a
  · rw [he, Function.update_self, hd]
    exact hsame
  · rw [Function.update_of_ne he]
    exact .refl _

end MildCalls

/-- What a transfer through the file at `a` does: the handle moves, and one event is recorded. -/
structure Transfers (a : Nat) (f f' : OpenFile) (e : Event) (b b' : Base) : Prop extends
    SameOutside b b' where
  was : b.heap a = some (.file f)
  same : f' = { f with file := f'.file }
  heap : b'.heap = Function.update b.heap a (some (.file f'))
  log : b'.log = b.log ++ [e]

theorem Transfers.mild {f f' : OpenFile} {e : Event}
    (h : Transfers a f f' e b b') : Mild (· = a) b b' :=
  mild_setFile h.was h.same h.toSameOutside h.heap

theorem readFile_some {a count : Nat} {r : Int32 × List UInt8}
    (h : readFile a count b = some (r, b')) :
    ∃ f f', Transfers a f f' (.read b.owner f r.2) b b' ∧
      ∃ σ σ' res, b.fss f.fs = some σ ∧
        ext2Read f.file (u32 count) (fun _ => 0) σ = some ((res, f'.file), σ') ∧
        b'.fss = Function.update b.fss f.fs (some σ') := by
  obtain ⟨f, b₁, h₁, h₂⟩ := bind_some.mp h
  obtain ⟨⟨res, file⟩, b₂, h₃, h₄⟩ := bind_some.mp h₂
  obtain ⟨hf, rfl⟩ := fileAt_some h₁
  obtain ⟨σ, σ', hσ, hx, rfl⟩ := runFs_some h₃
  obtain ⟨u, b₃, h₅, h₆⟩ := bind_some.mp h₄
  cases h₅
  rw [get_bind] at h₆
  obtain ⟨v, b₄, h₇, h₈⟩ := bind_some.mp h₆
  cases h₇
  refine ⟨f, { f with file := file }, ?_, σ, σ', res, hσ, hx, ?_⟩
  · split at h₈
    · cases h₈; exact ⟨⟨rfl, rfl, rfl, rfl, rfl⟩, hf, rfl, rfl, rfl⟩
    · cases h₈; exact ⟨⟨rfl, rfl, rfl, rfl, rfl⟩, hf, rfl, rfl, rfl⟩
  · split at h₈ <;> (cases h₈; rfl)

theorem writeFile_some {data : List UInt8} {r : Int32}
    (h : writeFile a data b = some (r, b')) :
    ∃ f f', Transfers a f f' (.write b.owner f (data.take (u32 data.length))) b b' ∧
      ∃ σ σ' res, b.fss f.fs = some σ ∧
        ext2Write f.file (Name.bytes data) (u32 data.length) σ = some ((res, f'.file), σ') ∧
        b'.fss = Function.update b.fss f.fs (some σ') := by
  obtain ⟨f, b₁, h₁, h₂⟩ := bind_some.mp h
  obtain ⟨⟨res, file⟩, b₂, h₃, h₄⟩ := bind_some.mp h₂
  obtain ⟨hf, rfl⟩ := fileAt_some h₁
  obtain ⟨σ, σ', hσ, hx, rfl⟩ := runFs_some h₃
  obtain ⟨u, b₃, h₅, h₆⟩ := bind_some.mp h₄
  cases h₅
  rw [get_bind] at h₆
  obtain ⟨v, b₄, h₇, h₈⟩ := bind_some.mp h₆
  cases h₇
  refine ⟨f, { f with file := file }, ?_, σ, σ', res, hσ, hx, ?_⟩
  · split at h₈
    · cases h₈; exact ⟨⟨rfl, rfl, rfl, rfl, rfl⟩, hf, rfl, rfl, rfl⟩
    · cases h₈; exact ⟨⟨rfl, rfl, rfl, rfl, rfl⟩, hf, rfl, rfl, rfl⟩
  · split at h₈ <;> (cases h₈; rfl)

def Event.isDevice : Event → Prop
  | .device _ _ => True
  | _ => False

/-- Nothing but a device was called, if anything. -/
structure Idle (b b' : Base) : Prop extends SameOutside b b' where
  fss : b'.fss = b.fss
  heap : b'.heap = b.heap
  log : ∃ es, b'.log = b.log ++ es ∧ ∀ e ∈ es, e.isDevice

theorem Idle.refl (b : Base) : Idle b b := ⟨.refl b, rfl, rfl, [], by simp, by simp⟩

theorem Idle.mild {A : Nat → Prop} (h : Idle b b') : Mild A b b' :=
  .of_heap h.toSameOutside h.heap

theorem callDevice_some {d : Device} {call : DeviceCall} {r : Int32 × List UInt8}
    (h : callDevice d call b = some (r, b')) : Idle b b' := by
  cases h
  exact ⟨⟨rfl, rfl, rfl, rfl, rfl⟩, rfl, rfl, [_], rfl, by simp [Event.isDevice]⟩

theorem deviceFor_some {has : Device → Bool} {d : Option Device}
    (h : deviceFor x has b = some (d, b')) : b' = b ∧ (x.isDev = false → d = none) := by
  simp only [deviceFor] at h
  split at h
  · next hx =>
      split at h
      · cases h
      · cases h; exact ⟨rfl, by simp [hx]⟩
  · cases h; exact ⟨rfl, fun _ => rfl⟩

/-- `VFS_Read` through a slot that is no socket: its file is read, for the process the slot belongs to
or for any when it is the kernel's. -/
theorem readSlot_some {count : Nat} {frame : Registers}
    {r : Option Int32 × List UInt8} (hs : x.present = true → x.isSocket = false)
    (h : readSlot x count frame b = some (r, b')) :
    Idle b b' ∨ (x.present = true ∧ (x.pid = -1 ∨ x.pid = b.pid) ∧
      ∃ a f f', x.file = some a ∧ Transfers a f f' (.read b.owner f r.2) b b' ∧
        ∃ σ σ' res, b.fss f.fs = some σ ∧
          ext2Read f.file (u32 count) (fun _ => 0) σ = some ((res, f'.file), σ') ∧
          b'.fss = Function.update b.fss f.fs (some σ')) := by
  rw [readSlot, get_bind] at h
  simp only at h
  split at h
  · cases h; exact .inl (.refl b)
  next hp =>
  simp only [hs (by simpa using hp), Bool.false_eq_true, if_false] at h
  split at h
  · cases h; exact .inl (.refl b)
  next hpid =>
  cases hf : x.file with
  | none =>
      rw [hf] at h
      cases h
      exact .inl (.refl b)
  | some a =>
      rw [hf] at h
      obtain ⟨d, b₁, h₁, h₂⟩ := bind_some.mp h
      obtain ⟨rfl, -⟩ := deviceFor_some h₁
      cases d with
      | some d =>
          obtain ⟨q, b₂, h₃, h₄⟩ := bind_some.mp h₂
          cases h₄
          exact .inl (callDevice_some h₃)
      | none =>
          obtain ⟨q, b₂, h₃, h₄⟩ := bind_some.mp h₂
          cases h₄
          obtain ⟨f, f', ht, hfs⟩ := readFile_some h₃
          refine .inr ⟨by simpa using hp, ?_, a, f, f', rfl, ht, hfs⟩
          by_contra hno
          exact hpid (not_or.mp hno)

/-- What `VFS_Write` checked before it writes through a slot that is no socket. -/
structure WriteCheck (x : VfsFile) (privileged : Bool) (b b₁ : Base) : Prop extends
    Aside Event.isLookup b b₁ where
  present : x.present = true
  caller : privileged = true ∨ x.pid = b.pid ∨ x.writeAll = true
  path : ∃ p, x.path = some p ∧ (x.isDev = true ∨
    vfsAccessOk x.fs (resolveFs b (b.str p)).2 accessWrite privileged b = some (true, b₁))

/-- `VFS_Write` through a slot that is no socket: it stops at a check, calls a device, or writes. -/
theorem writeSlot_some {data : List UInt8} {frame : Registers}
    {r : Option Int32} (hs : x.present = true → x.isSocket = false)
    (h : writeSlot x data privileged frame b = some (r, b')) :
    Aside Event.isLookup b b' ∨ ∃ b₁, WriteCheck x privileged b b₁ ∧
      (Idle b₁ b' ∨ ∃ a f f', x.file = some a ∧
        Transfers a f f' (.write b₁.owner f (data.take (u32 data.length))) b₁ b' ∧
        ∃ σ σ' res, b₁.fss f.fs = some σ ∧
          ext2Write f.file (Name.bytes data) (u32 data.length) σ = some ((res, f'.file), σ') ∧
          b'.fss = Function.update b₁.fss f.fs (some σ')) := by
  rw [writeSlot, get_bind] at h
  split at h
  · cases h; exact .inl (.refl b)
  next hp =>
  simp only [hs (by simpa using hp), Bool.false_eq_true, if_false] at h
  split at h
  · cases h; exact .inl (.refl b)
  next hcall =>
  obtain ⟨rel, b₀, h₀, h⟩ := bind_some.mp h
  obtain ⟨p, hpath, hrel, rfl⟩ : ∃ p, x.path = some p ∧ rel = (resolveFs b (b.str p)).2 ∧ b₀ = b := by
    simp only [relNow] at h₀
    split at h₀
    · cases h₀
    · next p hp => cases h₀; exact ⟨p, hp, rfl, rfl⟩
  subst hrel
  obtain ⟨ok, b₁, h₁, h⟩ := bind_some.mp h
  have haside : Aside Event.isLookup b₀ b₁ := by
    simp only [writable] at h₁
    split at h₁
    · cases h₁; exact .refl _
    · exact (aside_vfsAccessOk _ _ _ _ _ _ _ h₁).mono fun _ he => he.isLookup
  cases ok with
  | false =>
      cases h
      exact .inl haside
  | true =>
      have hcheck : WriteCheck x privileged b₀ b₁ := by
        refine ⟨haside, by simpa using hp, ?_, p, hpath, ?_⟩
        · by_contra hno
          simp only [not_or, Bool.not_eq_true] at hno
          exact hcall ⟨hno.1, hno.2.1, hno.2.2⟩
        · simp only [writable] at h₁
          split at h₁
          · next hd => exact .inl hd
          · exact .inr h₁
      refine .inr ⟨b₁, hcheck, ?_⟩
      simp only [Bool.not_true, Bool.false_eq_true, if_false] at h
      cases hf : x.file with
      | none =>
          rw [hf] at h
          cases h
          exact .inl (.refl _)
      | some a =>
          rw [hf] at h
          obtain ⟨d, b₂, h₂, h⟩ := bind_some.mp h
          obtain ⟨rfl, -⟩ := deviceFor_some h₂
          cases d with
          | some d =>
              obtain ⟨q, b₃, h₃, h₄⟩ := bind_some.mp h
              cases h₄
              exact .inl (callDevice_some h₃)
          | none =>
              obtain ⟨q, b₃, h₃, h₄⟩ := bind_some.mp h
              cases h₄
              obtain ⟨f, f', ht, hfs⟩ := writeFile_some h₃
              exact .inr ⟨a, f, f', rfl, ht, hfs⟩

theorem setPosSlot_some {pos : UInt32} {r : Int32}
    (h : setPosSlot x pos privileged b = some (r, b')) :
    b' = b ∨ (x.present = true ∧ (privileged = true ∨ x.pid = b.pid) ∧
      ∃ a f file, x.file = some a ∧ b.heap a = some (.file f) ∧
        ext2Seek f.file pos.toNat .set = .ok file ∧
        b' = { b with heap := Function.update b.heap a (some (.file { f with file := file })) }) := by
  rw [setPosSlot, get_bind] at h
  cases hp : x.present with
  | false =>
      rw [hp] at h
      cases h
      exact .inl rfl
  | true =>
      cases hf : x.file with
      | none =>
          rw [hp, hf] at h
          cases h
          exact .inl rfl
      | some a =>
          rw [hp, hf] at h
          simp only at h
          split at h
          · cases h; exact .inl rfl
          split at h
          · cases h; exact .inl rfl
          next hpid =>
          obtain ⟨f, b₁, h₁, h₂⟩ := bind_some.mp h
          obtain ⟨hfile, rfl⟩ := fileAt_some h₁
          cases hseek : ext2Seek f.file pos.toNat .set with
          | error e =>
              rw [hseek] at h₂
              cases h₂
              exact .inl rfl
          | ok file =>
              rw [hseek] at h₂
              obtain ⟨u, b₂, h₃, h₄⟩ := bind_some.mp h₂
              cases h₃
              cases h₄
              refine .inr ⟨rfl, ?_, a, f, file, rfl, hfile, hseek, rfl⟩
              by_contra hno
              simp only [not_or, Bool.not_eq_true] at hno
              exact hpid hno

theorem aside_getdentsLoop {E : Event → Prop} (fs count k written : Nat) (iter : DirIter) :
    AsideM E (getdentsLoop fs count k written iter) := by
  induction k generalizing written iter with
  | zero => exact .none
  | succ k ih =>
      refine .ite ((aside_runFs _ _).bind fun r => ?_) (aside_pure _)
      obtain ⟨e, iter'⟩ := r
      cases e with
      | error e => exact aside_pure _
      | ok e => exact .ite (aside_pure _) ((ih _ _).bind fun _ => aside_pure _)

theorem getdentsSlot_some {count : Nat} {r : Int32 × List DirEntry}
    (h : getdentsSlot x count b = some (r, b')) :
    b' = b ∨ (x.present = true ∧ x.isDir = true ∧ x.pid = b.pid ∧ b'.log = b.log ∧
      ∃ a d d', x.dirIter = some a ∧ b.heap a = some (.dir d) ∧ d'.fs = d.fs ∧ SameOutside b b' ∧
        b'.heap = Function.update b.heap a (some (.dir d'))) := by
  rw [getdentsSlot, get_bind] at h
  cases hp : x.present && x.isDir with
  | false =>
      rw [hp] at h
      cases h
      exact .inl rfl
  | true =>
      cases hi : x.dirIter with
      | none =>
          rw [hp, hi] at h
          cases h
          exact .inl rfl
      | some a =>
          rw [hp, hi] at h
          simp only at h
          split at h
          · cases h; exact .inl rfl
          next hpid =>
          obtain ⟨d, b₁, h₁, h₂⟩ := bind_some.mp h
          obtain ⟨hd, rfl⟩ := dirAt_some h₁
          obtain ⟨⟨es, iter, written⟩, b₂, h₃, h₄⟩ := bind_some.mp h₂
          have hA := aside_getdentsLoop (E := fun _ => False) _ _ _ _ _ _ _ _ h₃
          obtain ⟨u, b₃, h₅, h₆⟩ := bind_some.mp h₄
          cases h₅
          cases h₆
          simp only [Bool.and_eq_true] at hp
          refine .inr ⟨hp.1, hp.2, by simpa using hpid, ?_, a, d, { d with iter := iter }, rfl, hd, rfl,
            ⟨hA.rootfs, hA.net, hA.mountTable, hA.devices, hA.strings⟩, by rw [← hA.heap]⟩
          obtain ⟨es, he, hno⟩ := hA.log
          cases es with
          | nil => simpa using he
          | cons e es => exact (hno e (by simp)).elim

/-- The copy of a slot: its file opened again, for the caller. -/
theorem copySlot_some {x y : VfsFile}
    (h : copySlot x addr b = some (y, b')) :
    SameOutside b b' ∧ y = { x with file := y.file, pid := b.pid } ∧
      ((y.file = none ∧ b'.heap = b.heap) ∨
        ∃ p a f, x.path = some p ∧ y.file = some a ∧ Adds a (.file f) b b' ∧
          OpenedFile b.rootfs (b.str p) (reopenGrant b (b.str p)) f b') := by
  rw [copySlot, get_bind] at h
  cases hx : x.path with
  | none =>
      rw [hx] at h
      cases h
      exact ⟨.refl b, rfl, .inl ⟨rfl, rfl⟩⟩
  | some p =>
      rw [hx] at h
      obtain ⟨file, b₁, h₁, h₂⟩ := bind_some.mp h
      cases h₂
      refine ⟨outside_openAt _ _ _ _ _ _ _ h₁, rfl, ?_⟩
      rcases openAt_some h₁ with ⟨rfl, hheap⟩ | ⟨a, f, rfl, hadds, hopened⟩
      · exact .inl ⟨rfl, hheap⟩
      · exact .inr ⟨p, a, f, rfl, rfl, hadds, hopened⟩

end Blackmount.Vfs
