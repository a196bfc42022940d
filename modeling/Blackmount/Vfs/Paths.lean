import Blackmount.Vfs.Aside

/-!
# Vfs — which file system a path names

`VFS_Open` and `VFS_Create` send a path through `resolve_fs`; the calls of `sys.c` on a path, and on
the path kept with a descriptor, take it to the root file system as it stands.  The log says what
each call acted on.

* `resolveFs_eq_iff`: `resolve_fs` gives a path to the longest mount that covers it, and to the root
  file system when there is none.
* `resolveFs_picks`: the same as a choice from the table, and what it does not depend on.
* `acts_as_opened_iff`: a call acts on what `VFS_Open` resolved its path to exactly when that path
  was under no mount and still reads the same, or the root file system was mounted there under
  another name.
-/

namespace Blackmount.Vfs
open Blackmount.Lib Blackmount.Ext2 Blackmount.User Blackmount.Proc Blackmount.Net

/-! ### `resolve_fs` -/

namespace Base

def mounts (b : Base) : List Mount := (List.finRange maxMounts).map b.mountTable

/-- No active mount but an empty one covers the path. -/
def Uncovered (b : Base) (path : Name) : Prop :=
  ∀ m ∈ b.mounts, m.active = true → m.mountpoint ≠ [] → covers m.mountpoint path = false

/-- The mount a path is under: the longest one that covers it, the first of its name. -/
structure Under (b : Base) (path : Name) (m : Mount) : Prop where
  nonempty : m.mountpoint ≠ []
  covers : covers m.mountpoint path = true
  first : b.mounts.find? (fun m' => m'.active && m'.mountpoint == m.mountpoint) = some m
  longest : ∀ m' ∈ b.mounts, m'.active = true → Vfs.covers m'.mountpoint path = true →
    m'.mountpoint.length ≤ m.mountpoint.length

/-- The path stands for `rel` of `fs`: it is under no mount, or `fs` is mounted there and `rel` is
the rest of the path. -/
def Names (b : Base) (path : Name) (fs : Option Nat) (rel : Name) : Prop :=
  (b.Uncovered path ∧ b.rootfs = fs ∧ path = rel) ∨
    ∃ m, b.Under path m ∧ m.fs = fs ∧ relativeTo m.mountpoint path = rel

end Base

/-- Two mountpoints of the same length that cover a path are the same. -/
theorem covers_eq {path mp mp' : Name} (h : covers mp path = true) (h' : covers mp' path = true)
    (hl : mp.length = mp'.length) : mp = mp' := by
  simp only [covers, Bool.and_eq_true, List.isPrefixOf_iff_prefix] at h h'
  exact List.prefix_of_prefix_length_le h.1 h'.1 hl.le |>.eq_of_length hl

/-- One round of the loop: the mount is passed over, or it is longer than the best so far. -/
theorem consider_cases (path : Name) (best : Best) (m : Mount) :
    (best.consider path m = best ∧
        (m.active = true → covers m.mountpoint path = true → m.mountpoint.length ≤ best.len)) ∨
      (m.active = true ∧ covers m.mountpoint path = true ∧ best.len < m.mountpoint.length ∧
        best.consider path m = ⟨m.fs, relativeTo m.mountpoint path, m.mountpoint.length⟩) := by
  simp only [Best.consider]
  split_ifs with ha hl hc
  · exact .inl ⟨rfl, fun h => by simp [h] at ha⟩
  · exact .inl ⟨rfl, fun _ _ => hl⟩
  · exact .inr ⟨by simpa using ha, hc, by omega, rfl⟩
  · exact .inl ⟨rfl, fun _ h => absurd h hc⟩

/-- What the loop ends with is what it began with, or the first and longest mount that covers. -/
theorem foldl_consider (path : Name) (ms : List Mount) (best : Best) :
    (ms.foldl (Best.consider path) best = best ∧
        ∀ m ∈ ms, m.active = true → covers m.mountpoint path = true →
          m.mountpoint.length ≤ best.len) ∨
      ∃ m, ms.find? (fun m' => m'.active && m'.mountpoint == m.mountpoint) = some m ∧
        covers m.mountpoint path = true ∧ best.len < m.mountpoint.length ∧
        (∀ m' ∈ ms, m'.active = true → covers m'.mountpoint path = true →
          m'.mountpoint.length ≤ m.mountpoint.length) ∧
        ms.foldl (Best.consider path) best =
          ⟨m.fs, relativeTo m.mountpoint path, m.mountpoint.length⟩ := by
  induction ms generalizing best with
  | nil => exact .inl ⟨rfl, by simp⟩
  | cons m₀ ms ih =>
      rw [List.foldl_cons]
      rcases consider_cases path best m₀ with ⟨e, hpass⟩ | ⟨ha, hc, hlt, e⟩
      · rw [e]
        rcases ih best with ⟨er, hall⟩ | ⟨m, hfind, hmc, hmlt, hall, er⟩
        · exact .inl ⟨er, List.forall_mem_cons.mpr ⟨hpass, hall⟩⟩
        · have hskip : (m₀.active && m₀.mountpoint == m.mountpoint) = false := by
            by_contra hm
            simp only [Bool.not_eq_false, Bool.and_eq_true, beq_iff_eq] at hm
            have := hpass hm.1 (by rw [hm.2]; exact hmc)
            rw [hm.2] at this
            omega
          refine .inr ⟨m, by rw [List.find?_cons, hskip]; exact hfind, hmc, hmlt, ?_, er⟩
          exact List.forall_mem_cons.mpr ⟨fun ha hc => (hpass ha hc).trans hmlt.le, hall⟩
      · rw [e]
        rcases ih ⟨m₀.fs, relativeTo m₀.mountpoint path, m₀.mountpoint.length⟩ with
          ⟨er, hall⟩ | ⟨m, hfind, hmc, hmlt, hall, er⟩
        · refine .inr ⟨m₀, by simp [ha], hc, hlt, ?_, er⟩
          exact List.forall_mem_cons.mpr ⟨fun _ _ => Nat.le_refl _, hall⟩
        · simp only at hmlt
          have hskip : (m₀.active && m₀.mountpoint == m.mountpoint) = false := by
            by_contra hm
            simp only [Bool.not_eq_false, Bool.and_eq_true, beq_iff_eq] at hm
            rw [hm.2] at hmlt
            omega
          refine .inr ⟨m, by rw [List.find?_cons, hskip]; exact hfind, hmc, by omega, ?_, er⟩
          exact List.forall_mem_cons.mpr ⟨fun _ _ => hmlt.le, hall⟩

/-- **`resolve_fs` takes a path to the longest mount that covers it, and to the root file system
when there is none.** -/
theorem resolveFs_eq_iff (b : Base) (path : Name) (fs : Option Nat) (rel : Name) :
    resolveFs b path = (fs, rel) ↔ b.Names path fs rel := by
  have hdef : resolveFs b path =
      ((b.mounts.foldl (Best.consider path) ⟨b.rootfs, path, 0⟩).fs,
        (b.mounts.foldl (Best.consider path) ⟨b.rootfs, path, 0⟩).rel) := rfl
  rw [hdef]
  rcases foldl_consider path b.mounts ⟨b.rootfs, path, 0⟩ with ⟨e, hall⟩ | ⟨m, hfind, hc, hlt, hall, e⟩
  · rw [e]
    have hu : b.Uncovered path := by
      intro m hm ha hne
      by_contra hc
      rw [Bool.not_eq_false] at hc
      exact hne (List.length_eq_zero_iff.mp (Nat.le_zero.mp (hall m hm ha hc)))
    constructor
    · intro h
      rw [Prod.mk.injEq] at h
      exact .inl ⟨hu, h.1, h.2⟩
    · rintro (⟨-, rfl, rfl⟩ | ⟨m, hm, -, -⟩)
      · rfl
      · have ha := List.find?_some hm.first
        simp only [Bool.and_eq_true] at ha
        have := hu m (List.mem_of_find?_eq_some hm.first) ha.1 hm.nonempty
        rw [hm.covers] at this
        cases this
  · rw [e]
    have hm : b.Under path m :=
      ⟨fun h => by simp [h] at hlt, hc, hfind, hall⟩
    constructor
    · intro h
      rw [Prod.mk.injEq] at h
      exact .inr ⟨m, hm, h.1, h.2⟩
    · have ha := List.find?_some hfind
      simp only [Bool.and_eq_true] at ha
      rintro (⟨hu, -, -⟩ | ⟨m', hm', rfl, rfl⟩)
      · have := hu m (List.mem_of_find?_eq_some hfind) ha.1 hm.nonempty
        rw [hc] at this
        cases this
      · have ha' := List.find?_some hm'.first
        simp only [Bool.and_eq_true] at ha'
        have hl : m.mountpoint.length = m'.mountpoint.length :=
          Nat.le_antisymm (hm'.longest m (List.mem_of_find?_eq_some hfind) ha.1 hc)
            (hall m' (List.mem_of_find?_eq_some hm'.first) ha'.1 hm'.covers)
        have hp := covers_eq hc hm'.covers hl
        have hfirst := hm'.first
        rw [← hp, hfind] at hfirst
        cases hfirst
        rfl

/-! ### The longest mount point -/

/-- `mp` is the path up to a component boundary, and `rest` what follows. -/
def SplitsAt (mp path rest : Name) : Prop := path = mp ++ rest ∧ (rest = [] ∨ ∃ r, rest = slash :: r)

theorem covers_iff {mp path : Name} : covers mp path = true ↔ ∃ rest, SplitsAt mp path rest := by
  simp only [covers, Bool.and_eq_true, List.isPrefixOf_iff_prefix, Bool.or_eq_true, beq_iff_eq]
  constructor
  · rintro ⟨⟨rest, rfl⟩, hend⟩
    refine ⟨rest, rfl, ?_⟩
    rw [List.getElem?_append_right (Nat.le_refl _), Nat.sub_self] at hend
    cases rest with
    | nil => exact .inl rfl
    | cons c r =>
        rcases hend with hend | hend
        · cases hend
        · cases hend
          exact .inr ⟨r, rfl⟩
  · rintro ⟨rest, rfl, hrest⟩
    refine ⟨List.prefix_append mp rest, ?_⟩
    rw [List.getElem?_append_right (Nat.le_refl _), Nat.sub_self]
    rcases hrest with rfl | ⟨r, rfl⟩
    · exact .inl rfl
    · exact .inr rfl

/-- What follows the mount point, with a slash at its beginning. -/
theorem SplitsAt.relativeTo {mp path rest : Name} (h : SplitsAt mp path rest) :
    relativeTo mp path = if rest = [] then [slash] else rest := by
  obtain ⟨rfl, hrest⟩ := h
  rw [Vfs.relativeTo, List.getElem?_append_right (Nat.le_refl _), Nat.sub_self, List.drop_left]
  rcases hrest with rfl | ⟨r, rfl⟩
  · rfl
  · rfl

/-- An absolute path without a slash at its end. -/
structure ProperMountpoint (mp : Name) : Prop where
  absolute : mp.head? = some slash
  ends : mp.getLast? ≠ some slash

/-- Entry `i` is active and has the longest mount point of those that the path is under, and it is the first with it. -/
structure Picked (b : Base) (path : Name) (i : Fin maxMounts) (rest : Name) : Prop where
  active : (b.mountTable i).active = true
  splits : SplitsAt (b.mountTable i).mountpoint path rest
  longest : ∀ j rest', (b.mountTable j).active = true → SplitsAt (b.mountTable j).mountpoint path rest' →
    (b.mountTable j).mountpoint.length ≤ (b.mountTable i).mountpoint.length
  first : ∀ j, j < i → (b.mountTable j).active = true → (b.mountTable j).mountpoint ≠ (b.mountTable i).mountpoint

/-- What the first active entry of a mount point holds. -/
def Base.mountedAt (b : Base) (mp : Name) : Option (Option Nat) :=
  (b.mounts.find? fun m => m.active && m.mountpoint == mp).map Mount.fs

variable {b b' : Base}

/-- The mount of a path is determined by what is mounted where. -/
theorem Base.Under.fs {path : Name} {m : Mount} (h : b.Under path m) :
    b.mountedAt m.mountpoint = some m.fs := by
  rw [Base.mountedAt, h.first, Option.map_some]

theorem mountedAt_isSome {mp : Name} :
    b.mountedAt mp ≠ none ↔ ∃ m ∈ b.mounts, m.active = true ∧ m.mountpoint = mp := by
  rw [Base.mountedAt, Ne, Option.map_eq_none_iff, List.find?_eq_none]
  simp only [Bool.and_eq_true, beq_iff_eq, not_forall, Decidable.not_not, exists_prop]

/-- **The order of the table and its inactive entries do not matter**, but for the first active entry of each name. -/
theorem resolveFs_congr (hroot : b'.rootfs = b.rootfs) (hmounts : ∀ mp, b'.mountedAt mp = b.mountedAt mp)
    (path : Name) : resolveFs b' path = resolveFs b path := by
  have hsome : ∀ mp, (∃ m ∈ b'.mounts, m.active = true ∧ m.mountpoint = mp) ↔
      ∃ m ∈ b.mounts, m.active = true ∧ m.mountpoint = mp := by
    intro mp
    rw [← mountedAt_isSome, ← mountedAt_isSome, hmounts]
  refine (resolveFs_eq_iff b' path _ _).mpr ?_
  rcases (resolveFs_eq_iff b path _ _).mp (Prod.mk.eta (p := resolveFs b path)).symm with
    ⟨hno, hfs, hrel⟩ | ⟨m, hm, hfs, hrel⟩
  · refine .inl ⟨fun m' hm' ha hne => ?_, hroot.trans hfs, hrel⟩
    obtain ⟨m, hm, ha, he⟩ := (hsome m'.mountpoint).mp ⟨m', hm', ha, rfl⟩
    rw [← he]
    exact hno m hm ha (he ▸ hne)
  · -- the first entry of the same name in the other table
    have hhere : b'.mountedAt m.mountpoint = some m.fs := (hmounts _).trans hm.fs
    obtain ⟨m', hfind, hfs'⟩ := Option.map_eq_some_iff.mp hhere
    have hname := List.find?_some hfind
    simp only [Bool.and_eq_true, beq_iff_eq] at hname
    refine .inr ⟨m', ⟨hname.2 ▸ hm.nonempty, hname.2 ▸ hm.covers, hname.2 ▸ hfind, fun m'' hm'' ha hc => ?_⟩,
      hfs'.trans hfs, hname.2 ▸ hrel⟩
    obtain ⟨n, hn, han, he⟩ := (hsome m''.mountpoint).mp ⟨m'', hm'', ha, rfl⟩
    have := hm.longest n hn han (he ▸ hc)
    rwa [he, ← hname.2] at this

/-- **Mount resolution picks the longest component prefix**, and the root file system when there is none. -/
theorem resolveFs_picks {b : Base} (hproper : ∀ i, (b.mountTable i).active = true → ProperMountpoint (b.mountTable i).mountpoint)
    (path : Name) :
    (((∀ i rest, (b.mountTable i).active = true → ¬ SplitsAt (b.mountTable i).mountpoint path rest) ∧
        resolveFs b path = (b.rootfs, path)) ∨
      ∃ i rest, Picked b path i rest ∧
        resolveFs b path = ((b.mountTable i).fs, if rest = [] then [slash] else rest)) ∧
    ∀ b' : Base, b'.rootfs = b.rootfs → (∀ mp, b'.mountedAt mp = b.mountedAt mp) → resolveFs b' path = resolveFs b path := by
  refine ⟨?_, fun b' hroot hmounts => resolveFs_congr hroot hmounts path⟩
  have hmem : ∀ i, b.mountTable i ∈ b.mounts := fun i => List.mem_map.mpr ⟨i, List.mem_finRange i, rfl⟩
  rcases (resolveFs_eq_iff b path _ _).mp (Prod.mk.eta (p := resolveFs b path)).symm with
    ⟨hno, hfs, hrel⟩ | ⟨m, hm, hfs, hrel⟩
  · refine .inl ⟨fun i rest ha hs => ?_, Prod.ext hfs.symm hrel.symm⟩
    have hne : (b.mountTable i).mountpoint ≠ [] := by
      intro he
      have habs := (hproper i ha).absolute
      rw [he] at habs
      cases habs
    have := hno _ (hmem i) ha hne
    rw [covers_iff.mpr ⟨rest, hs⟩] at this
    cases this
  · right
    obtain ⟨hact, as, bs, hsplit, hbefore⟩ := List.find?_eq_some_iff_append.mp hm.first
    simp only [Bool.and_eq_true] at hact
    -- the place of the mount in the table
    have hlen : as.length < maxMounts := by
      have := congrArg List.length hsplit
      rw [Base.mounts, List.length_map, List.length_finRange, List.length_append, List.length_cons] at this
      omega
    have hat : ∀ k (hk : k < maxMounts), b.mounts[k]? = some (b.mountTable ⟨k, hk⟩) := by
      intro k hk
      rw [Base.mounts, List.getElem?_map, List.getElem?_eq_getElem (by rw [List.length_finRange]; exact hk),
        List.getElem_finRange]
      rfl
    have hself : b.mountTable ⟨as.length, hlen⟩ = m := by
      have := hat as.length hlen
      rw [hsplit, List.getElem?_append_right (Nat.le_refl _), Nat.sub_self] at this
      exact (Option.some.inj this).symm
    obtain ⟨rest, hrest⟩ := covers_iff.mp hm.covers
    refine ⟨⟨as.length, hlen⟩, rest, ⟨hself ▸ hact.1, hself ▸ hrest, fun j rest' ha hs => ?_, fun j hj ha he => ?_⟩,
      Prod.ext ?_ ?_⟩
    · rw [hself]
      exact hm.longest _ (hmem j) ha (covers_iff.mpr ⟨rest', hs⟩)
    · have hin : b.mountTable j ∈ as := by
        have := hat j.val j.isLt
        rw [hsplit, List.getElem?_append_left hj] at this
        exact List.mem_of_getElem? this
      have := hbefore _ hin
      rw [ha, he, hself, beq_self_eq_true] at this
      cases this
    · rw [hself]
      exact hfs.symm
    · rw [← hrest.relativeTo]
      exact hrel.symm

/-- Another file system is mounted on `/dev`. -/
def Tiny.mounted : State :=
  { state with base := { base with
      mountTable := fun i =>
        if i.val = 0 then { mountpoint := [47, 100, 101, 118], fs := some 1, active := true } else {} } }

theorem resolveFs_picks_dev : ∃ i rest, Picked Tiny.mounted.base [47, 100, 101, 118, 47, 120] i rest ∧
    resolveFs Tiny.mounted.base [47, 100, 101, 118, 47, 120] =
      ((Tiny.mounted.base.mountTable i).fs, if rest = [] then [slash] else rest) := by
  have hproper : ∀ i, (Tiny.mounted.base.mountTable i).active = true →
      ProperMountpoint (Tiny.mounted.base.mountTable i).mountpoint := by
    intro i hi
    by_cases h0 : i.val = 0
    · have he : Tiny.mounted.base.mountTable i = { mountpoint := [47, 100, 101, 118], fs := some 1, active := true } := if_pos h0
      rw [he]
      exact ⟨rfl, by decide⟩
    · have he : Tiny.mounted.base.mountTable i = {} := if_neg h0
      rw [he] at hi
      cases hi
  rcases (resolveFs_picks hproper [47, 100, 101, 118, 47, 120]).1 with ⟨hno, -⟩ | h
  · exact absurd ⟨rfl, .inr ⟨[120], rfl⟩⟩ (hno ⟨0, by decide⟩ [47, 120] rfl)
  · exact h

/-! ### The calls -/

/-- The calls of `sys.c` that act on a path without `resolve_fs`. -/
inductive PathCall where
  | stat (path statbuf : UInt64)
  | chdir (path : UInt64)
  | access (path mode : UInt64)
  | rmdir (path : UInt64)
  | unlink (path : UInt64)
  | chmod (path mode : UInt64)
  | chown (path uid gid : UInt64)
  | fstat (fd statbuf : UInt64)
  | fchmod (fd mode : UInt64)
  | fchown (fd uid gid : UInt64)
  | dup (fd : UInt64) (addr : Option Nat)
  | dup2 (oldfd newfd : UInt64) (addr : Option Nat)

namespace PathCall

def perform : PathCall → VfsM Unit
  | .stat path statbuf => do let _ ← onBase (sysStat path statbuf)
  | .chdir path => do let _ ← onBase (sysChdir path)
  | .access path mode => do let _ ← onBase (sysAccess path mode)
  | .rmdir path => do let _ ← onBase (sysRmdir path)
  | .unlink path => do let _ ← onBase (sysUnlink path)
  | .chmod path mode => do let _ ← onBase (sysChmod path mode)
  | .chown path uid gid => do let _ ← onBase (sysChown path uid gid)
  | .fstat fd statbuf => do let _ ← sysFstat fd statbuf
  | .fchmod fd mode => do let _ ← sysFchmod fd mode
  | .fchown fd uid gid => do let _ ← sysFchown fd uid gid
  | .dup fd addr => do let _ ← sysDup fd addr
  | .dup2 oldfd newfd addr => do let _ ← sysDup2 oldfd newfd addr

/-- A pointer that is not NULL. -/
def nonNull (p : UInt64) : Option UInt64 := if p = 0 then none else some p

/-- The path pointer a call follows: its argument, or the one kept with its descriptor; `none` when
the call is refused before that. -/
def pointer (s : State) : PathCall → Option UInt64
  | .stat path statbuf => if statbuf = 0 then none else nonNull path
  | .chdir path | .access path _ | .rmdir path | .unlink path | .chmod path _ | .chown path _ _ =>
      nonNull path
  | .fstat fd statbuf => if statbuf = 0 then none else pathOf s fd
  | .fchmod fd _ | .fchown fd _ _ => (pathOf s fd).bind nonNull
  | .dup fd _ => if (firstFree s).isSome then pathOf s fd else none
  | .dup2 oldfd newfd _ =>
      if (slot64 newfd).isSome ∧ slot64 oldfd ≠ slot64 newfd then pathOf s oldfd else none

/-- Whether the call takes a descriptor. -/
def onDescriptor : PathCall → Bool
  | .fstat .. | .fchmod .. | .fchown .. | .dup .. | .dup2 .. => true
  | _ => false

/-- Where the path was resolved by `VFS_Open`: for a descriptor, in the state it was opened in. -/
def openedIn (s₀ s : State) (c : PathCall) : Base := if c.onDescriptor then s₀.base else s.base

end PathCall

/-- The call acts on `path` of `fs`, and on nothing else. -/
def ActsOn (fs : Option Nat) (path : Name) (b b' : Base) : Prop :=
  Logs (LookupAt fs path) b b' ∧ ∀ a, fs = some a → Event.lookup a path ∈ b'.log.drop b.log.length

/-- While the root file system is `root`, every event added is a lookup of `path` there. -/
def OnRoot (root : Option Nat) (path : Name) (b b' : Base) : Prop :=
  b.rootfs = root → Logs (LookupAt root path) b b'

namespace OnRoot

variable {root : Option Nat} {path : Name}

theorem refl (b : Base) : OnRoot root path b b := fun _ => .refl b

theorem trans {a b c : Base} (h₁ : OnRoot root path a b) (h₂ : OnRoot root path b c) :
    OnRoot root path a c := fun h => (h₁ h).trans (h₂ ((h₁ h).rootfs.trans h))

end OnRoot

/-- The program looks nothing up but `path` on the root file system. -/
abbrev RootM {α : Type} (root : Option Nat) (path : Name) (m : BaseM α) : Prop :=
  Keeps (OnRoot root path) m

section RootRules

variable {α β : Type} {root : Option Nat} {path : Name}

theorem root_pure (a : α) : RootM root path (pure a) := .pure OnRoot.refl a

theorem root_get : RootM root path (get : BaseM Base) := .get OnRoot.refl

theorem RootM.bind {m : BaseM α} {f : α → BaseM β} (hm : RootM root path m)
    (hf : ∀ a, RootM root path (f a)) : RootM root path (m >>= f) :=
  Keeps.bind OnRoot.trans hm hf

theorem root_onRoot (null : α) (m : Ext2M α) : RootM root path (onRoot path null m) := by
  intro b r b' h hr
  subst hr
  exact (aside_onPath b.rootfs path null m b r b' h).toLogs

theorem root_setProc (k : Kernel) : RootM root path (setProc k) := by
  intro b r b' h _
  cases h
  exact ⟨rfl, [], by simp, by simp⟩

theorem root_keepFile (fs : Option Nat) (g : Grant) (addr : Option Nat) (f : Option Ext2.File) :
    RootM root path (keepFile fs g addr f) :=
  fun b r b' h _ => logs_keepFile fs g addr f b r b' h

end RootRules

/-- A lookup on the root file system, and then only such lookups. -/
theorem actsOn_first {α β : Type} {path : Name} {null : α} {m : Ext2M α} {f : α → BaseM β}
    {r : β} (hf : ∀ x, RootM b.rootfs path (f x))
    (h : (onRoot path null m >>= f) b = some (r, b')) : ActsOn b.rootfs path b b' := by
  obtain ⟨x, b₁, h₁, h₂⟩ := bind_some.mp h
  have h₁ : onPath b.rootfs path null m b = some (x, b₁) := h₁
  have hl₁ := (aside_onPath _ _ _ _ b x b₁ h₁).toLogs
  have hl₂ := hf x b₁ r b' h₂ hl₁.rootfs
  refine ⟨hl₁.trans hl₂, fun a ha => ?_⟩
  rw [ha] at h₁
  obtain ⟨u, b₂, hrec, hrun⟩ := bind_some.mp h₁
  cases hrec
  obtain ⟨σ, σ', -, -, rfl⟩ := runFs_some hrun
  obtain ⟨es, e, -⟩ := hl₂.log
  rw [e]
  simp

theorem ActsOn.none {path : Name} (h : b.rootfs = none) : ActsOn b.rootfs path b b :=
  ⟨.refl b, fun a ha => by rw [h] at ha; cases ha⟩

/-! ### What each call acts on -/

variable {r p : UInt64}

section Acts

variable {b b' : Base} {p : UInt64}

theorem acts_sysStat {statbuf : UInt64} {r : UInt64 × Option Inode} (hp : p ≠ 0) (hq : statbuf ≠ 0)
    (h : sysStat p statbuf b = some (r, b')) : ActsOn b.rootfs (b.str p) b b' := by
  rw [sysStat, if_neg (by simp [hp, hq]), get_bind] at h
  refine actsOn_first (fun x => ?_) h
  cases x <;> exact root_pure _

theorem acts_sysChdir (hp : p ≠ 0) (h : sysChdir p b = some (r, b')) :
    ActsOn b.rootfs (b.str p) b b' := by
  rw [sysChdir, if_neg hp, get_bind] at h
  refine actsOn_first (fun x => ?_) h
  cases x with
  | error e => exact root_pure _
  | ok inode =>
      refine .ite (root_pure _) ((root_onRoot _ _).bind fun ok => .ite ?_ (root_pure _))
      refine root_get.bind fun b₁ => ?_
      cases procChdir b₁.proc (b.str p) with
      | none => exact root_pure _
      | some k => exact (root_setProc k).bind fun _ => root_pure _

theorem acts_sysAccess {mode r : UInt64} (hp : p ≠ 0) (h : sysAccess p mode b = some (r, b')) :
    ActsOn b.rootfs (b.str p) b b' := by
  rw [sysAccess, if_neg hp, get_bind] at h
  simp only at h
  split at h
  · exact actsOn_first (fun x => .ite (root_pure _) (root_pure _)) h
  · exact actsOn_first (fun x => .ite (root_pure _) (root_pure _)) h

theorem acts_sysRmdir (hp : p ≠ 0) (h : sysRmdir p b = some (r, b')) :
    ActsOn b.rootfs (b.str p) b b' := by
  rw [sysRmdir, if_neg hp, get_bind] at h
  simp only at h
  split at h
  · next hr => cases h; exact .none hr
  · refine actsOn_first (fun x => ?_) h
    exact (root_onRoot _ _).bind fun _ => .ite (root_pure _) (root_pure _)

theorem acts_sysUnlink (hp : p ≠ 0) (h : sysUnlink p b = some (r, b')) :
    ActsOn b.rootfs (b.str p) b b' := by
  rw [sysUnlink, if_neg hp, get_bind] at h
  simp only at h
  split at h
  · next hr => cases h; exact .none hr
  · refine actsOn_first (fun x => .ite ?_ (root_pure _)) h
    exact (root_onRoot _ _).bind fun _ => .ite (root_pure _) (root_pure _)

theorem acts_sysChmod {mode r : UInt64} (hp : p ≠ 0) (h : sysChmod p mode b = some (r, b')) :
    ActsOn b.rootfs (b.str p) b b' := by
  rw [sysChmod, if_neg hp, get_bind] at h
  exact actsOn_first (fun x => .ite (root_pure _) (root_pure _)) h

theorem acts_sysChown {uid gid r : UInt64} (hp : p ≠ 0) (h : sysChown p uid gid b = some (r, b')) :
    ActsOn b.rootfs (b.str p) b b' := by
  rw [sysChown, if_neg hp, get_bind] at h
  exact actsOn_first (fun x => .ite (root_pure _) (root_pure _)) h

/-- The copy of a slot opens its path again. -/
theorem acts_copySlot {x y : VfsFile} {addr : Option Nat} (hx : x.path = some p)
    (h : copySlot x addr b = some (y, b')) : ActsOn b.rootfs (b.str p) b b' := by
  rw [copySlot, get_bind, hx] at h
  simp only at h
  obtain ⟨f, b₁, h₁, h₂⟩ := bind_some.mp h
  cases h₂
  have h₁ : (onRoot (b.str p) none (ext2Open (b.str p)) >>=
      keepFile b.rootfs (reopenGrant b (b.str p)) addr) b = some (f, b') := h₁
  exact actsOn_first (root_keepFile _ _ _) h₁

end Acts

/-! ### What any call acts on -/

/-- What a call that follows `pointer` acts on: the path on the root file system, or nothing. -/
def ActsThrough (pointer : Option UInt64) (b b' : Base) : Prop :=
  match pointer with
  | none => b'.log = b.log
  | some p => ActsOn b.rootfs (b.str p) b b'

theorem ActsThrough.nonNull (hnull : p = 0 → b'.log = b.log)
    (h : p ≠ 0 → ActsOn b.rootfs (b.str p) b b') : ActsThrough (PathCall.nonNull p) b b' := by
  simp only [PathCall.nonNull]
  split
  · next hp => exact hnull hp
  · next hp => exact h hp

/-- What was closed before does not show. -/
theorem Unsaid.actsThrough {pointer : Option UInt64} {b b₁ b' : Base} (hu : Unsaid b b₁)
    (h : ActsThrough pointer b₁ b') : ActsThrough pointer b b' := by
  cases pointer with
  | none => exact Eq.trans h hu.log
  | some p =>
      obtain ⟨hl, hmem⟩ : ActsOn b₁.rootfs (b₁.str p) b₁ b' := h
      rw [hu.rootfs, hu.str] at hl hmem
      rw [hu.log] at hmem
      refine ⟨⟨hl.rootfs.trans hu.rootfs, ?_⟩, hmem⟩
      rw [← hu.log]
      exact hl.log

theorem through_copySlot {x y : VfsFile} {addr : Option Nat}
    (h : copySlot x addr b = some (y, b')) : ActsThrough x.path b b' := by
  cases hx : x.path with
  | none =>
      rw [copySlot, get_bind, hx] at h
      cases h
      rfl
  | some p => exact acts_copySlot hx h

theorem through_sysStat {p statbuf : UInt64} {r : UInt64 × Option Inode}
    (h : sysStat p statbuf b = some (r, b')) :
    ActsThrough (if statbuf = 0 then none else PathCall.nonNull p) b b' := by
  split
  · next hq =>
      rw [sysStat, if_pos (.inr hq)] at h
      cases h
      rfl
  · next hq =>
      refine .nonNull (fun hp => ?_) fun hp => acts_sysStat hp hq h
      rw [sysStat, if_pos (.inl hp)] at h
      cases h
      rfl

theorem through_sysChdir (h : sysChdir p b = some (r, b')) :
    ActsThrough (PathCall.nonNull p) b b' := by
  refine .nonNull (fun hp => ?_) fun hp => acts_sysChdir hp h
  rw [sysChdir, if_pos hp] at h
  cases h
  rfl

theorem through_sysAccess {p mode r : UInt64} (h : sysAccess p mode b = some (r, b')) :
    ActsThrough (PathCall.nonNull p) b b' := by
  refine .nonNull (fun hp => ?_) fun hp => acts_sysAccess hp h
  rw [sysAccess, if_pos hp] at h
  cases h
  rfl

theorem through_sysRmdir (h : sysRmdir p b = some (r, b')) :
    ActsThrough (PathCall.nonNull p) b b' := by
  refine .nonNull (fun hp => ?_) fun hp => acts_sysRmdir hp h
  rw [sysRmdir, if_pos hp] at h
  cases h
  rfl

theorem through_sysUnlink (h : sysUnlink p b = some (r, b')) :
    ActsThrough (PathCall.nonNull p) b b' := by
  refine .nonNull (fun hp => ?_) fun hp => acts_sysUnlink hp h
  rw [sysUnlink, if_pos hp] at h
  cases h
  rfl

theorem through_sysChmod {p mode r : UInt64} (h : sysChmod p mode b = some (r, b')) :
    ActsThrough (PathCall.nonNull p) b b' := by
  refine .nonNull (fun hp => ?_) fun hp => acts_sysChmod hp h
  rw [sysChmod, if_pos hp] at h
  cases h
  rfl

theorem through_sysChown {p uid gid r : UInt64}
    (h : sysChown p uid gid b = some (r, b')) : ActsThrough (PathCall.nonNull p) b b' := by
  refine .nonNull (fun hp => ?_) fun hp => acts_sysChown hp h
  rw [sysChown, if_pos hp] at h
  cases h
  rfl

theorem through_sysFstat {fd statbuf : UInt64} {s s' : State} {r : UInt64 × Option Inode}
    (h : sysFstat fd statbuf s = some (r, s')) :
    ActsThrough (if statbuf = 0 then none else pathOf s fd) s.base s'.base := by
  simp only [sysFstat] at h
  split at h
  · next hq =>
      rw [if_pos hq]
      cases h
      rfl
  · next hq =>
      rw [if_neg hq]
      rw [get_bind] at h
      cases hp : pathOf s fd with
      | none =>
          rw [hp] at h
          cases h
          rfl
      | some p =>
          rw [hp] at h
          simp only [get_bind] at h
          obtain ⟨x, s₁, h₁, h₂⟩ := bind_some.mp h
          have h₁ := (onBase_some h₁).1
          have hs : s' = s₁ := by cases x <;> (cases h₂; rfl)
          rw [hs]
          refine actsOn_first (fun x => root_pure x) (bind_some.mpr ⟨x, s₁.base, h₁, rfl⟩)

theorem pathOf_present {s : State} {fd : UInt64} {j : Fd} (hj : slot64 fd = some j)
    (hp : (s.openFiles j).present = true) : pathOf s fd = (s.openFiles j).path := by
  simp only [pathOf, hj, hp, if_true]

theorem pathOf_absent {s : State} {fd : UInt64}
    (h : ∀ j, slot64 fd = some j → (s.openFiles j).present = false) : pathOf s fd = none := by
  simp only [pathOf]
  cases hj : slot64 fd with
  | none => rfl
  | some j => simp [h j hj]

theorem through_sysDup {fd r : UInt64} {addr : Option Nat} {s s' : State}
    (h : sysDup fd addr s = some (r, s')) :
    ActsThrough (if (firstFree s).isSome then pathOf s fd else none) s.base s'.base := by
  rcases sysDup_cases h with ⟨rfl, hno⟩ | ⟨j, i, y, hj, hp, hi, hc, -⟩
  · rcases hno with hno | hno
    · rw [hno]
      rfl
    · rw [pathOf_absent hno, ite_self]
      rfl
  · rw [hi, Option.isSome_some, if_pos rfl, pathOf_present hj hp]
    exact through_copySlot hc

theorem through_sysDup2 {oldfd newfd r : UInt64} {addr : Option Nat} {s s' : State}
    (h : sysDup2 oldfd newfd addr s = some (r, s')) :
    ActsThrough (PathCall.pointer s (.dup2 oldfd newfd addr)) s.base s'.base := by
  simp only [PathCall.pointer]
  rcases sysDup2_cases h with ⟨rfl, hno⟩ | ⟨j, i, s₁, y, hj, hi, hdup⟩
  · rcases hno with hno | hno | hno
    · rw [if_neg (by simp [hno])]
      rfl
    · rw [if_neg (by simp [hno])]
      rfl
    · rw [pathOf_absent hno, ite_self]
      rfl
  · have hne : slot64 oldfd ≠ slot64 newfd := by
      rw [hj, hi]
      simpa using hdup.ne
    rw [if_pos ⟨by rw [hi]; rfl, hne⟩, pathOf_present hj hdup.source]
    -- closing the target first says nothing
    have hu : Unsaid s.base s₁.base := by
      rcases hdup.target with ⟨-, rfl⟩ | ⟨-, r, hc⟩
      · exact .refl _
      · rcases vfsClose_some hc with ⟨-, rfl⟩ | ⟨k, x, -, hcl, -⟩
        · exact .refl _
        · exact unsaid_closeSlot _ _ _ _ _ hcl
    exact hu.actsThrough (through_copySlot hdup.copy)

/-- **Every call acts on its path on the root file system.** -/
theorem acts_perform {c : PathCall} {s s' : State} (h : c.perform s = some ((), s')) :
    ActsThrough (c.pointer s) s.base s'.base := by
  cases c <;> (obtain ⟨r, s₁, h₁, h₂⟩ := bind_some.mp h; cases h₂)
  case stat p statbuf =>
      exact through_sysStat (onBase_some h₁).1
  case chdir p =>
      exact through_sysChdir (onBase_some h₁).1
  case access p mode =>
      exact through_sysAccess (onBase_some h₁).1
  case rmdir p =>
      exact through_sysRmdir (onBase_some h₁).1
  case unlink p =>
      exact through_sysUnlink (onBase_some h₁).1
  case chmod p mode =>
      exact through_sysChmod (onBase_some h₁).1
  case chown p uid gid =>
      exact through_sysChown (onBase_some h₁).1
  case fstat fd statbuf =>
      exact through_sysFstat h₁
  case fchmod fd mode =>
      rw [sysFchmod, get_bind] at h₁
      simp only [PathCall.pointer]
      cases hp : pathOf s fd with
      | none =>
          rw [hp] at h₁
          cases h₁
          rfl
      | some p =>
          rw [hp] at h₁
          exact through_sysChmod (onBase_some h₁).1
  case fchown fd uid gid =>
      rw [sysFchown, get_bind] at h₁
      simp only [PathCall.pointer]
      cases hp : pathOf s fd with
      | none =>
          rw [hp] at h₁
          cases h₁
          rfl
      | some p =>
          rw [hp] at h₁
          exact through_sysChown (onBase_some h₁).1
  case dup fd addr =>
      exact through_sysDup h₁
  case dup2 oldfd newfd addr =>
      exact through_sysDup2 h₁

/-- Every pair of a file system and a path that the call acts on is what `resolve_fs` makes, in the
state `VFS_Open` resolved it in, of the path the call's pointer stood for there. -/
def ActsAsOpened (s₀ s s' : State) (c : PathCall) : Prop :=
  ∀ a path, Event.lookup a path ∈ s'.base.log.drop s.base.log.length →
    ∃ p, c.pointer s = some p ∧
      resolveFs (c.openedIn s₀ s) ((c.openedIn s₀ s).str p) = (some a, path)

/-- **A call acts on what `VFS_Open` resolved its path to exactly when that path stood for itself on
the root file system, or for what it reads as now.** -/
theorem acts_as_opened_iff {c : PathCall} {s₀ s s' : State} (h : c.perform s = some ((), s')) :
    ActsAsOpened s₀ s s' c ↔
      ∀ p, c.pointer s = some p → s.base.rootfs ≠ none →
        (c.openedIn s₀ s).Names ((c.openedIn s₀ s).str p) s.base.rootfs (s.base.str p) := by
  have hacts := acts_perform h
  cases hp : c.pointer s with
  | none =>
      refine iff_of_true (fun a path hmem => ?_) (fun p hp' => (by cases hp'))
      rw [hp] at hacts
      rw [show s'.base.log = s.base.log from hacts] at hmem
      simp at hmem
  | some p =>
      rw [hp] at hacts
      obtain ⟨hl, hmem⟩ : ActsOn s.base.rootfs (s.base.str p) s.base s'.base := hacts
      constructor
      · intro hprop q hq hr
        cases hq
        obtain ⟨a, ha⟩ := Option.ne_none_iff_exists'.mp hr
        obtain ⟨q, hq, he⟩ := hprop a _ (hmem a ha)
        rw [hp] at hq
        cases hq
        rw [ha]
        exact (resolveFs_eq_iff _ _ _ _).mp he
      · intro hcond a path hev
        obtain ⟨a', ha', e⟩ := hl.of_mem hev
        cases e
        refine ⟨p, hp, ?_⟩
        rw [← ha']
        exact (resolveFs_eq_iff _ _ _ _).mpr (hcond p rfl (by rw [ha']; simp))

/-- The root directory is opened and its descriptor duplicated. -/
theorem acts_as_opened_dupRoot : ∃ s s', vfsOpen 1 false false (some 0) Tiny.state = some (0, s) ∧
    PathCall.perform (.dup 0 (some 1)) s = some ((), s') ∧
    ActsAsOpened Tiny.state s s' (.dup 0 (some 1)) := by
  have hopen : (vfsOpen 1 false false (some 0) Tiny.state).map Prod.fst = some 0 := by decide +kernel
  obtain ⟨⟨r, s⟩, hs, rfl⟩ := Option.map_eq_some_iff.mp hopen
  have hdup : ((vfsOpen 1 false false (some 0) Tiny.state).bind fun x =>
      (PathCall.perform (.dup 0 (some 1)) x.2).map fun _ =>
        (PathCall.pointer x.2 (.dup 0 (some 1)), x.2.base.rootfs, x.2.base.str 1)) =
      some (some 1, some 0, [47]) := by decide +kernel
  rw [hs, Option.bind_some] at hdup
  obtain ⟨⟨u, s'⟩, hs', he⟩ := Option.map_eq_some_iff.mp hdup
  simp only [Prod.mk.injEq] at he
  obtain ⟨hptr, hroot, hstr⟩ := he
  refine ⟨s, s', hs, hs', (acts_as_opened_iff hs').mpr fun p hp _ => .inl ?_⟩
  rw [hptr] at hp
  cases hp
  refine ⟨fun m hm ha => ?_, hroot.symm, hstr.symm⟩
  obtain ⟨i, -, rfl⟩ := List.mem_map.mp hm
  cases ha

/-- `sys_stat` looks for a path below a mount on the root file system. -/
theorem stat_passes_mount_over : ∃ s s', PathCall.perform (.stat 4 1) s = some ((), s') ∧
    ¬ ActsAsOpened s s s' (.stat 4 1) := by
  have hstat : (PathCall.perform (.stat 4 1) Tiny.mounted).isSome := by decide +kernel
  obtain ⟨⟨u, s'⟩, hs'⟩ := Option.isSome_iff_exists.mp hstat
  refine ⟨Tiny.mounted, s', hs', fun hacts => ?_⟩
  obtain ⟨-, hmem⟩ : ActsOn (some 0) [47, 100, 101, 118, 47, 120] Tiny.mounted.base s'.base :=
    acts_perform hs'
  obtain ⟨p, hp, he⟩ := hacts 0 _ (hmem 0 rfl)
  cases hp
  exact absurd he (by decide)

end Blackmount.Vfs
