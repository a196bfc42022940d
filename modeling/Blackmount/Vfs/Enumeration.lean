import Blackmount.Ext2.Listing
import Blackmount.Vfs.Sys
import Mathlib.Data.List.TakeWhile

/-!
# Vfs — enumerating a directory

`sys_getdents64` fills a buffer with records of a directory, from where the call before stopped.
`VFS_GetDents64` learns that an entry does not fit only after `ext2_readdir` has gone past it, so
the entry is in no buffer (`pack`).

* `pack_none_iff`: no entry is lost just if some of them fill the buffer, or all of them fit.
* `getdents_run`: a call hands out what `pack` gives, and leaves the iterator behind the lost entry.
* `enumeration_complete_iff`: calls until one returns 0 hand out the directory, each entry once and
  in order, just if no call of them loses an entry.
-/

namespace Blackmount.Vfs
open Blackmount.Lib Blackmount.Ext2 Blackmount.User Blackmount.Proc Blackmount.Net

/-! ### Records -/

/-- `struct linux_dirent64`. -/
structure Dirent64 where
  dIno : Nat
  dOff : Nat
  dReclen : Nat
  dType : Nat
  dName : Name
  deriving DecidableEq, Repr

/-- The record that `VFS_GetDents64` writes for an entry, `written` bytes into the buffer. -/
def direntOf (written : Nat) (e : DirEntry) : Dirent64 where
  dIno := e.inode
  dOff := written + direntSize e.name
  dReclen := u16 (direntSize e.name)
  dType := e.fileType
  dName := e.name.takeWhile (· ≠ 0)

/-- The records of a buffer, from `written` bytes on. -/
def direntsFrom : Nat → List DirEntry → List Dirent64
  | _, [] => []
  | written, e :: es => direntOf written e :: direntsFrom (written + direntSize e.name) es

/-- A record is a whole number of words, has room for its name, and the name is a string. -/
structure Dirent64.WellFormed (r : Dirent64) : Prop where
  aligned : 8 ∣ r.dReclen
  room : 19 + r.dName.length + 1 ≤ r.dReclen
  string : 0 ∉ r.dName

/-- The bytes that the records of some entries take. -/
def bytesOf (es : List DirEntry) : Nat := (es.map fun e => direntSize e.name).sum

@[simp] theorem bytesOf_nil : bytesOf [] = 0 := rfl

@[simp] theorem bytesOf_cons (e : DirEntry) (es : List DirEntry) : bytesOf (e :: es) = direntSize e.name + bytesOf es :=
  rfl

theorem direntSize_pos (name : Name) : 0 < direntSize name := by
  rw [direntSize]
  omega

theorem bytesOf_append (es es' : List DirEntry) : bytesOf (es ++ es') = bytesOf es + bytesOf es' := by
  rw [bytesOf, List.map_append, List.sum_append, bytesOf, bytesOf]

theorem eight_dvd_bytesOf (es : List DirEntry) : 8 ∣ bytesOf es := by
  induction es with
  | nil => exact ⟨0, rfl⟩
  | cons e es ih =>
      rw [bytesOf_cons, direntSize]
      omega

variable {es : List DirEntry}

theorem bytesOf_eq_zero : bytesOf es = 0 ↔ es = [] := by
  cases es with
  | nil => simp
  | cons e es =>
      have := direntSize_pos e.name
      simp only [bytesOf_cons, reduceCtorEq, iff_false]
      omega

theorem direntSize_lt {name : Name} (h : name.length ≤ 255) : direntSize name < 2 ^ 16 := by
  have : (name.takeWhile (· ≠ 0)).length ≤ name.length := (List.takeWhile_sublist _).length_le
  rw [direntSize]
  omega

theorem direntOf_reclen {e : DirEntry} (h : e.name.length ≤ 255) (written : Nat) :
    (direntOf written e).dReclen = direntSize e.name := Nat.mod_eq_of_lt (direntSize_lt h)

theorem direntOf_wellFormed {e : DirEntry} (h : e.name.length ≤ 255) (written : Nat) : (direntOf written e).WellFormed where
  aligned := by
    rw [direntOf_reclen h, direntSize]
    omega
  room := by
    rw [direntOf_reclen h, direntSize, direntOf]
    dsimp only
    omega
  string hmem := by
    have := List.mem_takeWhile_imp hmem
    simp at this

theorem sum_reclen (h : ∀ e ∈ es, e.name.length ≤ 255) (written : Nat) :
    ((direntsFrom written es).map Dirent64.dReclen).sum = bytesOf es := by
  induction es generalizing written with
  | nil => rfl
  | cons e es ih =>
      rw [direntsFrom, List.map_cons, List.sum_cons, direntOf_reclen (h e List.mem_cons_self),
        ih fun e he => h e (List.mem_cons_of_mem _ he), bytesOf_cons]

theorem direntsFrom_wellFormed (h : ∀ e ∈ es, e.name.length ≤ 255) (written : Nat) :
    ∀ r ∈ direntsFrom written es, r.WellFormed := by
  induction es generalizing written with
  | nil => simp [direntsFrom]
  | cons e es ih =>
      intro r hr
      rcases List.mem_cons.mp hr with rfl | hr
      · exact direntOf_wellFormed (h e List.mem_cons_self) written
      · exact ih (fun e he => h e (List.mem_cons_of_mem _ he)) _ r hr

/-! ### One buffer -/

/-- What the loop of `VFS_GetDents64` does with the entries that `ext2_readdir` hands out, from `written` bytes on:
those it puts into the buffer, the one it drops, and those it does not come to. -/
def pack (count : Nat) : Nat → List DirEntry → List DirEntry × Option DirEntry × List DirEntry
  | _, [] => ([], none, [])
  | written, e :: es =>
      if written < count then
        if written + direntSize e.name > count then ([], some e, es)
        else
          let (given, lost, left) := pack count (written + direntSize e.name) es
          (e :: given, lost, left)
      else ([], none, e :: es)

theorem pack_eq (count written : Nat) (es : List DirEntry) :
    es = (pack count written es).1 ++ (pack count written es).2.1.toList ++ (pack count written es).2.2 := by
  induction es generalizing written with
  | nil => rfl
  | cons e es ih =>
      rw [pack]
      split
      · split
        · rfl
        · exact congrArg (e :: ·) (ih _)
      · rfl

theorem pack_leading (count written : Nat) (es : List DirEntry) : (pack count written es).1 <+: es :=
  ⟨(pack count written es).2.1.toList ++ (pack count written es).2.2, by
    rw [← List.append_assoc]
    exact (pack_eq count written es).symm⟩

/-- **No entry is lost** just if some of them fill the buffer, or all of them fit. -/
theorem pack_none_iff {count written : Nat} (es : List DirEntry) (h : written ≤ count) :
    (pack count written es).2.1 = none ↔
      (∃ n, written + bytesOf (es.take n) = count) ∨ written + bytesOf es ≤ count := by
  induction es generalizing written with
  | nil => simp [pack, h]
  | cons e es ih =>
      have hpos := direntSize_pos e.name
      rw [pack]
      split
      · next hlt =>
          split
          · next hgt =>
              refine iff_of_false nofun ?_
              rintro (⟨n, hn⟩ | hle)
              · cases n with
                | zero =>
                    simp only [List.take_zero, bytesOf_nil] at hn
                    omega
                | succ n =>
                    simp only [List.take_succ_cons, bytesOf_cons] at hn
                    omega
              · rw [bytesOf_cons] at hle
                omega
          · next hle =>
              refine (ih (by omega)).trans (or_congr ⟨fun ⟨n, hn⟩ => ⟨n + 1, ?_⟩, fun ⟨n, hn⟩ => ?_⟩ ?_)
              · rw [List.take_succ_cons, bytesOf_cons]
                omega
              · cases n with
                | zero =>
                    simp only [List.take_zero, bytesOf_nil] at hn
                    omega
                | succ n =>
                    refine ⟨n, ?_⟩
                    rw [List.take_succ_cons, bytesOf_cons] at hn
                    omega
              · rw [bytesOf_cons]
                omega
      · exact iff_of_true rfl (.inl ⟨0, by simp only [List.take_zero, bytesOf_nil]; omega⟩)

/-- The buffer is full, or nothing is left. -/
theorem pack_full {count written : Nat} (h : written ≤ count)
    (hnone : (pack count written es).2.1 = none) :
    written + bytesOf (pack count written es).1 = count ∨ (pack count written es).1 = es := by
  induction es generalizing written with
  | nil => exact .inr rfl
  | cons e es ih =>
      rw [pack] at hnone ⊢
      split at hnone
      · next hlt =>
          rw [if_pos hlt]
          split at hnone
          · cases hnone
          · next hle =>
              rw [if_neg hle]
              refine (ih (by omega) hnone).imp (fun h => ?_) fun h => ?_
              · dsimp only
                rw [bytesOf_cons]
                omega
              · exact congrArg (e :: ·) h
      · next hge =>
          rw [if_neg hge]
          refine .inl ?_
          dsimp only
          rw [bytesOf_nil]
          omega

theorem pack_le {count written : Nat} (es : List DirEntry) (h : written ≤ count) :
    written + bytesOf (pack count written es).1 ≤ count := by
  induction es generalizing written with
  | nil => exact h
  | cons e es ih =>
      rw [pack]
      split
      · split
        · exact h
        · have : written + direntSize e.name + bytesOf (pack count (written + direntSize e.name) es).1 ≤ count := ih (by omega)
          dsimp only
          rw [bytesOf_cons]
          omega
      · exact h

/-- The first entry is handed out, if its record is not larger than the buffer. -/
theorem pack_ne_nil {count : Nat} {e : DirEntry} (h : direntSize e.name ≤ count) :
    (pack count 0 (e :: es)).1 ≠ [] := by
  have := direntSize_pos e.name
  rw [pack, if_pos (by omega), if_neg (by omega)]
  exact nofun

/-- The loop of `VFS_GetDents64` is `pack`, on what `ext2_readdir` would hand out. -/
theorem getdentsLoop_run {fs : Fs} (hm : Mapped fs.blockSize) {a count : Nat} (k' : Nat) : ∀ {iter : DirIter} {fs' fs₁ : Fs}
    {served es : List DirEntry} {written k : Nat} {b : Base}, fs.Lists iter.dir.inode iter.offset es → Alike fs fs' →
    readAll k' iter fs' = some (served, fs₁) → b.fss a = some fs' → written ≤ count → count < written + k →
    ∃ o rest fs'', getdentsLoop a count k written iter b = some (((pack count written served).1, { iter with offset := o },
        written + bytesOf (pack count written served).1), { b with fss := Function.update b.fss a (some fs'') }) ∧
      Alike fs fs'' ∧ fs.Lists iter.dir.inode o rest ∧
      es = (pack count written served).1 ++ (pack count written served).2.1.toList ++ rest := by
  induction k' with
  | zero =>
      intro iter fs' fs₁ served es written k b _ _ hrun
      cases hrun
  | succ k' ih =>
      intro iter fs' fs₁ served es written k b hl hfs hrun hb hle hk
      obtain ⟨k, rfl⟩ : ∃ j, k = j + 1 := ⟨k - 1, by omega⟩
      rw [getdentsLoop]
      by_cases hlt : written < count
      swap
      · -- the buffer is full
        have hpack : pack count written served = ([], none, served) := by
          cases served with
          | nil => rfl
          | cons e served => rw [pack, if_neg hlt]
        rw [hpack, if_neg hlt]
        refine ⟨iter.offset, es, fs', ?_, hfs, hl, rfl⟩
        rw [← hb, Function.update_eq_self]
        rfl
      obtain ⟨o', r, fs'', hread, hq, hr⟩ := readdir_listed hm hl hfs
      have hcall : runFs a (ext2Readdir iter) b =
          some ((r, { iter with offset := o' }), { b with fss := Function.update b.fss a (some fs'') }) := by
        rw [runFs, hb]
        dsimp only
        rw [hread]
      rw [if_pos hlt, bind_run, hcall, Option.bind_some]
      rw [readAll, bind_run, hread, Option.bind_some] at hrun
      rcases hr with ⟨e, es', rfl, rfl, hl'⟩ | ⟨⟨err, rfl⟩, hl', -⟩
      · obtain ⟨served', fs₂, hrest, hpure⟩ := bind_some.mp hrun
        cases hpure
        dsimp only
        rw [pack, if_pos hlt]
        by_cases hfit : written + direntSize e.name > count
        · rw [if_pos hfit, if_pos hfit]
          exact ⟨o', es', fs'', rfl, hfs.quiet hq, hl', rfl⟩
        · rw [if_neg hfit, if_neg hfit]
          obtain ⟨o, rest, fs₃, hloop, hfs₃, hlrest, hes⟩ := @ih { iter with offset := o' } fs'' fs₁ served' es'
            (written + direntSize e.name) k { b with fss := Function.update b.fss a (some fs'') }
            hl' (hfs.quiet hq) hrest (by simp) (by omega) (by have := direntSize_pos e.name; omega)
          refine ⟨o, rest, fs₃, ?_, hfs₃, hlrest, congrArg (e :: ·) hes⟩
          rw [bind_run, hloop, Option.bind_some]
          dsimp only
          rw [Function.update_idem, bytesOf_cons, Nat.add_assoc]
          rfl
      · cases hrun
        exact ⟨o', es, fs'', rfl, hfs.quiet hq, hl', rfl⟩

/-! ### One call -/

/-- Descriptor `fd` of the running process is an open directory: slot `i` holds the iterator `d`, at `a`, on `fs`. -/
structure Reading (s : State) (fd : UInt64) (i : Fd) (a : Nat) (d : OpenDir) (fs : Fs) : Prop where
  slot : slotOf (fdInt fd) = some i
  present : (s.openFiles i).present = true
  isDir : (s.openFiles i).isDir = true
  dirIter : (s.openFiles i).dirIter = some a
  pid : (s.openFiles i).pid = s.base.pid
  obj : s.base.heap a = some (.dir d)
  mounted : s.base.fss d.fs = some fs
  mapped : Mapped fs.blockSize

/-- The entries `es` are listed from the iterator's offset on. -/
def Enumerating (s : State) (fd : UInt64) (es : List DirEntry) : Prop :=
  ∃ i a d fs, Reading s fd i a d fs ∧ fs.Lists d.iter.dir.inode d.iter.offset es

/-- A call with a buffer of `count` bytes loses nothing: of the entries that `ext2_readdir` will hand out, before the
end or before a block is refused, some fill the buffer exactly or all fit into it; a block is not refused before the
next entry; and the bytes are a positive `int`. -/
def Fits (s : State) (fd : UInt64) (count : Nat) : Prop :=
  ∃ i a d fs, Reading s fd i a d fs ∧ ∃ k served fs', readAll k d.iter fs = some (served, fs') ∧
    (served = [] → fs.Lists d.iter.dir.inode d.iter.offset []) ∧
    ((∃ n, bytesOf (served.take n) = count) ∧ count < 2 ^ 31 ∨ bytesOf served ≤ count ∧ bytesOf served < 2 ^ 31)

theorem readAll_unique {k k' : Nat} {iter : DirIter} {fs : Fs} {r r' : List DirEntry × Fs} (h : readAll k iter fs = some r)
    (h' : readAll k' iter fs = some r') : r = r' := by
  induction k generalizing k' iter fs r r' with
  | zero => cases h
  | succ k ih =>
      cases k' with
      | zero => cases h'
      | succ k' =>
          rw [readAll] at h h'
          obtain ⟨es, fs₂⟩ := r
          obtain ⟨es', fs₂'⟩ := r'
          obtain ⟨⟨e, iter'⟩, fs₁, hread, h⟩ := bind_some.mp h
          obtain ⟨⟨e', iter''⟩, fs₁', hread', h'⟩ := bind_some.mp h'
          cases hread.symm.trans hread'
          cases e with
          | error e =>
              cases h
              cases h'
              rfl
          | ok e =>
              obtain ⟨es, fs₂, hrest, h⟩ := bind_some.mp h
              obtain ⟨es', fs₂', hrest', h'⟩ := bind_some.mp h'
              cases h
              cases h'
              cases ih hrest hrest'
              rfl

theorem Reading.unique {s : State} {fd : UInt64} {i i' : Fd} {a a' : Nat} {d d' : OpenDir} {fs fs' : Fs}
    (h : Reading s fd i a d fs) (h' : Reading s fd i' a' d' fs') : d = d' ∧ fs = fs' := by
  obtain rfl := Option.some.inj (h.slot.symm.trans h'.slot)
  obtain rfl := Option.some.inj (h.dirIter.symm.trans h'.dirIter)
  cases h.obj.symm.trans h'.obj
  exact ⟨rfl, Option.some.inj (h.mounted.symm.trans h'.mounted)⟩

/-! ### The result of a call -/

theorem asInt_neg_iff (n : Nat) : asInt n < 0 ↔ 2 ^ 31 ≤ n % 2 ^ 32 := by
  have hint : (asInt n).toInt = Int.bmod (n % 2 ^ 32 : Nat) (2 ^ 32) := by
    rw [← Int32.toInt_toBitVec, BitVec.toInt_eq_toNat_bmod, asInt]
    rfl
  rw [Int32.lt_iff_toInt_lt, hint, Int.bmod_def, Int32.toInt_zero]
  split <;> omega

/-- An `int` that is not negative is widened to itself. -/
theorem wide_toNat {r : Int32} (h : ¬ r < 0) : (wide r).toNat = r.toBitVec.toNat := by
  have hmsb : r.toBitVec.msb = false := by
    rw [BitVec.msb_eq_toInt]
    simpa [Int32.lt_iff_toInt_lt] using h
  have hsign : (wide r).toNat = (r.toBitVec.signExtend 64).toNat := rfl
  have hlt := r.toBitVec.isLt
  rw [hsign, BitVec.signExtend_eq_setWidth_of_msb_false hmsb, BitVec.toNat_setWidth]
  omega

/-- What `sys_getdents64` returns for `n` bytes. -/
def dentsResult (n : Nat) : UInt64 := if asInt n < 0 then serror .badF else wide (asInt n)

/-- The result is the number of bytes just if that is a positive `int`. -/
theorem dentsResult_iff {n : Nat} (h : 8 ∣ n) : (dentsResult n).toNat = n ↔ n < 2 ^ 31 := by
  have hneg := asInt_neg_iff n
  by_cases hlow : asInt n < 0
  · rw [dentsResult, if_pos hlow]
    have hbad : (serror .badF).toNat = 2 ^ 64 - 9 := by decide
    have := hneg.mp hlow
    omega
  · rw [dentsResult, if_neg hlow, wide_toNat hlow]
    have hnat : (asInt n).toBitVec.toNat = n % 2 ^ 32 := rfl
    have := mt hneg.mpr hlow
    omega

/-- **A call** puts into the buffer what `pack` gives, and the iterator lists what is behind the lost entry. -/
theorem getdents_run (count : Nat) {s : State} {fd : UInt64} {buf : UInt64} {i : Fd} {a : Nat} {d : OpenDir} {fs : Fs}
    (hr : Reading s fd i a d fs) (hl : fs.Lists d.iter.dir.inode d.iter.offset es) (hbuf : buf ≠ 0) :
    ∃ k served left fs₁, readAll k d.iter fs = some (served, fs₁) ∧ es = served ++ left ∧ ∃ rest s',
      sysGetdents64 fd buf count s = some ((dentsResult (bytesOf (pack count 0 served).1), (pack count 0 served).1), s') ∧
      es = (pack count 0 served).1 ++ (pack count 0 served).2.1.toList ++ rest ∧ Enumerating s' fd rest := by
  obtain ⟨k, served, left, fs₁, hall, hes, -⟩ := readAll_listed hr.mapped hl (.refl fs)
  obtain ⟨o, rest, fs₂, hloop, hfs₂, hrest, hsplit⟩ := getdentsLoop_run hr.mapped (a := d.fs) k hl (.refl fs)
    hall hr.mounted (Nat.zero_le count) (k := count + 1) (by omega)
  refine ⟨k, served, left, fs₁, hall, hes, rest, ?_⟩
  obtain ⟨b', hb'⟩ : ∃ b' : Base, b' = { s.base with
      fss := Function.update s.base.fss d.fs (some fs₂)
      heap := Function.update s.base.heap a (some (.dir { d with iter := { d.iter with offset := o } })) } := ⟨_, rfl⟩
  have hslot : getdentsSlot (s.openFiles i) count s.base =
      some ((asInt (bytesOf (pack count 0 served).1), (pack count 0 served).1), b') := by
    rw [getdentsSlot, get_bind, hr.present, hr.isDir, hr.dirIter, Bool.and_self]
    dsimp only
    rw [if_neg (not_not_intro hr.pid), bind_run]
    have hdir : dirAt a s.base = some (d, s.base) := by rw [dirAt, hr.obj]
    rw [hdir, Option.bind_some]
    dsimp only
    rw [bind_run, hloop, Option.bind_some, hb', Nat.zero_add]
    rfl
  refine ⟨{ s with base := b' }, ?_, hsplit, i, a, { d with iter := { d.iter with offset := o } }, fs₂, ?_, ?_⟩
  · rw [sysGetdents64, if_neg hbuf, bind_run, vfsGetDents64, hr.slot]
    dsimp only
    rw [get_bind, onBase, hslot, Option.bind_some]
    dsimp only
    rw [dentsResult]
    split <;> rfl
  · refine ⟨hr.slot, hr.present, hr.isDir, hr.dirIter, ?_, ?_, ?_, ?_⟩
    · rw [hb']
      exact hr.pid
    · rw [hb']
      exact Function.update_self ..
    · rw [hb']
      exact Function.update_self ..
    · obtain ⟨f, rfl⟩ := hfs₂
      exact hr.mapped
  · exact hfs₂.lists hrest

/-! ### An enumeration -/

/-- A call of `sys_getdents64`, and its answer. -/
structure Reply where
  before : State
  buf : UInt64
  size : Nat
  result : UInt64
  entries : List DirEntry

/-- Calls with the descriptor `fd`, one after the other.  Between them anything may happen that leaves the descriptor
and the directory as they are. -/
inductive Enumeration (fd : UInt64) : State → List Reply → Prop where
  | nil (s : State) : Enumeration fd s []
  | call {s s₁ s₂ : State} {buf : UInt64} {size : Nat} {result : UInt64} {entries : List DirEntry} {replies : List Reply}
      (hkept : ∀ es, Enumerating s fd es → Enumerating s₁ fd es) (hbuf : buf ≠ 0)
      (h : sysGetdents64 fd buf size s₁ = some ((result, entries), s₂)) (t : Enumeration fd s₂ replies) :
      Enumeration fd s (⟨s₁, buf, size, result, entries⟩ :: replies)

/-- The replies have the entries `es` together, each once and in order, as well-formed records whose lengths sum to
the result of each call. -/
structure Complete (replies : List Reply) (es : List DirEntry) : Prop where
  entries : replies.flatMap Reply.entries = es
  records : ∀ r ∈ replies, (∀ x ∈ direntsFrom 0 r.entries, x.WellFormed) ∧
    r.result.toNat = ((direntsFrom 0 r.entries).map Dirent64.dReclen).sum

theorem Enumerating.name_le {s : State} {fd : UInt64} (h : Enumerating s fd es) {e : DirEntry}
    (he : e ∈ es) : e.name.length ≤ 255 := by
  obtain ⟨i, a, d, fs, -, hl⟩ := h
  exact hl.name_le he

/-- A call of an enumeration, with what it loses, and what is left to the calls after it. -/
theorem Enumeration.step {fd : UInt64} {s : State} {r : Reply} {replies : List Reply} (h : Enumeration fd s (r :: replies))
    (he : Enumerating s fd es) (hsize : ∀ e ∈ es, direntSize e.name ≤ r.size) :
    ∃ lost rest s', es = r.entries ++ lost ++ rest ∧ r.result = dentsResult (bytesOf r.entries) ∧
      Enumerating s' fd rest ∧ Enumeration fd s' replies ∧
      (Fits r.before fd r.size ↔ lost = [] ∧ bytesOf r.entries < 2 ^ 31 ∧ (r.entries = [] → es = [])) := by
  cases h with
  | @call _ s₁ s₂ buf size result entries _ hkept hbuf hcall t =>
      obtain ⟨i, a, d, fs, hr, hl⟩ := hkept es he
      obtain ⟨k, served, left, fs₁, hall, hes, rest, s', hrun, hsplit, he'⟩ := getdents_run size hr hl hbuf
      cases hcall.symm.trans hrun
      dsimp only at hsize ⊢
      refine ⟨_, rest, _, hsplit, rfl, he', t, ?_⟩
      -- nothing is handed out only if nothing can be
      have hnil : (pack size 0 served).1 = [] → served = [] := fun h => by
        cases served with
        | nil => rfl
        | cons e served => exact absurd h (pack_ne_nil (hsize e (by rw [hes]; exact List.mem_cons_self)))
      have hnone := pack_none_iff served (Nat.zero_le size)
      have hle := pack_le served (Nat.zero_le size)
      have hmore : bytesOf (pack size 0 served).1 ≤ bytesOf served := by
        obtain ⟨behind, happend⟩ := pack_leading size 0 served
        have := congrArg bytesOf happend
        rw [bytesOf_append] at this
        omega
      simp only [Nat.zero_add] at hnone hle
      rw [Option.toList_eq_nil_iff]
      constructor
      · rintro ⟨i', a', d', fs', hr', k', served', fs₁', hall', hempty, hbytes⟩
        obtain ⟨rfl, rfl⟩ := hr.unique hr'
        cases readAll_unique hall hall'
        refine ⟨hnone.mpr (hbytes.imp And.left And.left), ?_, fun h => hl.unique (hempty (hnil h))⟩
        rcases hbytes with ⟨-, hlt⟩ | ⟨-, hlt⟩
        · omega
        · omega
      · rintro ⟨hlost, hlt, hempty⟩
        refine ⟨i, a, d, fs, hr, k, served, fs₁, hall, fun h => ?_, ?_⟩
        · rw [h] at hempty
          have := hempty rfl
          rwa [this] at hl
        · have hfull := pack_full (Nat.zero_le size) hlost
          rw [Nat.zero_add] at hfull
          rcases hfull with hfull | hfull
          · left
            refine ⟨⟨(pack size 0 served).1.length, ?_⟩, by omega⟩
            rw [← List.prefix_iff_eq_take.mp (pack_leading size 0 served), hfull]
          · rw [hfull] at hle hlt
            exact .inr ⟨hle, hlt⟩

/-- The calls hand out some of what is listed, in order. -/
theorem Enumeration.sublist {fd : UInt64} {replies : List Reply} : ∀ {s : State} {es : List DirEntry},
    Enumeration fd s replies → Enumerating s fd es → (∀ r ∈ replies, ∀ e ∈ es, direntSize e.name ≤ r.size) →
    (replies.flatMap Reply.entries).Sublist es := by
  induction replies with
  | nil =>
      intro s es _ _ _
      exact List.nil_sublist _
  | cons r replies ih =>
      intro s es h he hsize
      obtain ⟨lost, rest, s', rfl, -, he', t, -⟩ := h.step he (hsize r List.mem_cons_self)
      rw [List.flatMap_cons, List.append_assoc]
      refine List.Sublist.append_left ((ih t he' fun r hr e hmem => ?_).trans (List.sublist_append_right _ _)) _
      exact hsize r (List.mem_cons_of_mem _ hr) e (List.mem_append_right _ hmem)

/-- **Directory enumeration is complete**: calls with buffers that are large enough for every record, up to the first
that returns 0, hand out all that is listed, each entry once and in order, if and only if no call of them loses
an entry. -/
theorem enumeration_complete_iff {fd : UInt64} {s : State} {replies : List Reply} {last : Reply} {es : List DirEntry}
    (h : Enumeration fd s (replies ++ [last])) (he : Enumerating s fd es)
    (hsize : ∀ r ∈ replies ++ [last], ∀ e ∈ es, direntSize e.name ≤ r.size)
    (hmore : ∀ r ∈ replies, r.result ≠ 0) (hlast : last.result = 0) :
    Complete (replies ++ [last]) es ↔ ∀ r ∈ replies ++ [last], Fits r.before fd r.size := by
  have hfirst : ∀ (r : Reply), (∀ e ∈ r.entries, e.name.length ≤ 255) → r.result = dentsResult (bytesOf r.entries) →
      ((∀ x ∈ direntsFrom 0 r.entries, x.WellFormed) ∧
        r.result.toNat = ((direntsFrom 0 r.entries).map Dirent64.dReclen).sum ↔ bytesOf r.entries < 2 ^ 31) := by
    intro r hname hresult
    rw [sum_reclen hname, hresult, dentsResult_iff (eight_dvd_bytesOf _)]
    exact ⟨And.right, fun h => ⟨direntsFrom_wellFormed hname 0, h⟩⟩
  induction replies generalizing s es with
  | nil =>
      obtain ⟨lost, rest, s', hes, hresult, -, -, hfits⟩ := h.step he (hsize last (by simp))
      have hname : ∀ e ∈ last.entries, e.name.length ≤ 255 := fun e hmem =>
        he.name_le (by rw [hes]; simp [hmem])
      rw [List.nil_append, List.forall_mem_singleton, hfits]
      constructor
      · rintro ⟨hentries, hrecords⟩
        have hentries : last.entries = es := by simpa using hentries
        obtain ⟨hwf, hsum⟩ := hrecords last (List.mem_singleton_self last)
        refine ⟨?_, (hfirst last hname hresult).mp ⟨hwf, hsum⟩, fun h => hentries ▸ h⟩
        rw [hentries, List.append_assoc] at hes
        exact (List.append_eq_nil_iff.mp (List.self_eq_append_right.mp hes)).1
      · rintro ⟨-, hlt, hempty⟩
        have hzero : (dentsResult (bytesOf last.entries)).toNat = bytesOf last.entries :=
          (dentsResult_iff (eight_dvd_bytesOf _)).mpr hlt
        rw [← hresult, hlast] at hzero
        have hnil : last.entries = [] := bytesOf_eq_zero.mp hzero.symm
        refine ⟨by simp [hnil, hempty hnil], fun r hr => ?_⟩
        obtain rfl := List.mem_singleton.mp hr
        exact (hfirst r hname hresult).mpr hlt
  | cons r replies ih =>
      rw [List.cons_append] at h
      have hsizer := hsize r (by simp)
      obtain ⟨lost, rest, s', hes, hresult, he', t, hfits⟩ := h.step he hsizer
      have hname : ∀ e ∈ r.entries, e.name.length ≤ 255 := fun e hmem => he.name_le (by rw [hes]; simp [hmem])
      have hsize' : ∀ r ∈ replies ++ [last], ∀ e ∈ rest, direntSize e.name ≤ r.size := fun r hr e hmem =>
        hsize r (List.mem_cons_of_mem _ hr) e (by rw [hes]; simp [hmem])
      have ih := ih t he' hsize' fun r hr => hmore r (List.mem_cons_of_mem _ hr)
      rw [List.cons_append, List.forall_mem_cons, hfits]
      refine Iff.trans ?_ (and_congr Iff.rfl ih)
      constructor
      · rintro ⟨hentries, hrecords⟩
        rw [List.flatMap_cons, hes, List.append_assoc, List.append_cancel_left_eq] at hentries
        have hsub := t.sublist he' hsize'
        -- what the later calls hand out is no longer than what is left to them
        have hlost : lost = [] := by
          have hlen := hsub.length_le
          rw [hentries, List.length_append] at hlen
          exact List.eq_nil_of_length_eq_zero (by omega)
        refine ⟨⟨hlost, (hfirst r hname hresult).mp (hrecords r List.mem_cons_self), fun hnil => ?_⟩, ?_,
          fun r hr => hrecords r (List.mem_cons_of_mem _ hr)⟩
        · refine absurd ?_ (hmore r List.mem_cons_self)
          rw [hresult, hnil]
          decide
        · rw [hentries, hlost, List.nil_append]
      · rintro ⟨⟨hlost, hlt, -⟩, hentries, hrecords⟩
        refine ⟨?_, fun r' hr' => ?_⟩
        · rw [List.flatMap_cons, hentries, hes, hlost, List.append_nil]
        · rcases List.mem_cons.mp hr' with rfl | hr'
          · exact (hfirst r' hname hresult).mpr hlt
          · exact hrecords r' hr'

/-! ### The root directory of the small machine -/

namespace Tiny

/-- The running process has the root directory open, as descriptor 0. -/
def listing : State where
  base := { files.base with heap := fun a => if a = 0 then some (.dir ⟨0, ⟨2, filed.inodeAt 2, 0, true⟩, 0⟩) else none }
  openFiles i := if i.val = 0 then
      { VfsFile.zero with present := true, isDir := true, dirIter := some 0, fs := some 0, pid := files.base.pid }
    else .zero

/-- `.`, `..`, `a` and `b`. -/
def rootEntries : List DirEntry := [⟨[46], 2, 2⟩, ⟨[46, 46], 2, 2⟩, ⟨[97], 11, 1⟩, ⟨[98], 12, 1⟩]

theorem rootEntries_eq : (filed.liveAt (filed.inodeAt 2) 0 ++ (filed.liveAt (filed.inodeAt 2) 12 ++
    (filed.liveAt (filed.inodeAt 2) 24 ++ (filed.liveAt (filed.inodeAt 2) 36 ++ [])))) = rootEntries := by decide +kernel

theorem listing_enumerating : Enumerating listing 0 rootEntries := by
  refine ⟨⟨0, by decide⟩, 0, ⟨0, ⟨2, filed.inodeAt 2, 0, true⟩, 0⟩, filed, ⟨by decide, rfl, rfl, rfl, rfl, rfl, rfl, ?_⟩, ?_⟩
  · exact ⟨by decide, by decide, by decide⟩
  · rw [← rootEntries_eq]
    have hscan : ∀ p ∈ [(0, 12), (12, 24), (24, 36), (36, 1024)],
        filed.scan (filed.inodeAt 2) (readAt filed.blockSize) p.1 = .next p.2 := by decide +kernel
    exact .next (hscan (0, 12) (by simp)) (.next (hscan (12, 24) (by simp)) (.next (hscan (24, 36) (by simp))
      (.next (hscan (36, 1024) (by simp)) (.done (by decide +kernel)))))

/-- Three calls with buffers of `size` bytes. -/
def threeCalls (size : Nat) : VfsM ((UInt64 × List DirEntry) × (UInt64 × List DirEntry) × UInt64 × List DirEntry) := do
  let first ← sysGetdents64 0 1 size
  let second ← sysGetdents64 0 1 size
  let third ← sysGetdents64 0 1 size
  return (first, second, third)

theorem listing_run (size : Nat) {a b c : UInt64 × List DirEntry} (h : (threeCalls size listing).map Prod.fst = some (a, b, c)) :
    ∃ s₂ s₃, Enumeration 0 listing ([⟨listing, 1, size, a.1, a.2⟩, ⟨s₂, 1, size, b.1, b.2⟩] ++ [⟨s₃, 1, size, c.1, c.2⟩]) := by
  obtain ⟨⟨r, s'⟩, hrun, hr⟩ := Option.map_eq_some_iff.mp h
  obtain ⟨x, s₁, h₁, hrun⟩ := bind_some.mp hrun
  obtain ⟨y, s₂, h₂, hrun⟩ := bind_some.mp hrun
  obtain ⟨z, s₃, h₃, hrun⟩ := bind_some.mp hrun
  cases hrun
  cases hr
  exact ⟨s₁, s₂, .call (fun _ h => h) (by decide) h₁ (.call (fun _ h => h) (by decide) h₂
    (.call (fun _ h => h) (by decide) h₃ (.nil _)))⟩

end Tiny

/-- The root directory of the small machine in buffers of two records. -/
theorem enumeration_complete_iff_listing : ∃ replies last, Enumeration 0 Tiny.listing (replies ++ [last]) ∧
    (Complete (replies ++ [last]) Tiny.rootEntries ↔ ∀ r ∈ replies ++ [last], Fits r.before 0 r.size) := by
  obtain ⟨s₂, s₃, h⟩ := Tiny.listing_run 48 (a := (48, [⟨[46], 2, 2⟩, ⟨[46, 46], 2, 2⟩]))
    (b := (48, [⟨[97], 11, 1⟩, ⟨[98], 12, 1⟩])) (c := (0, [])) (by decide +kernel)
  refine ⟨_, _, h, enumeration_complete_iff h Tiny.listing_enumerating ?_ ?_ rfl⟩
  · have hsizes : ∀ e ∈ Tiny.rootEntries, direntSize e.name ≤ 48 := by decide
    simpa using hsizes
  · simp

/-- **An entry that does not fit is in no buffer**: with buffers of 40 bytes, `..` and `b` are lost. -/
theorem entry_lost : ∃ replies last, Enumeration 0 Tiny.listing (replies ++ [last]) ∧
    Enumerating Tiny.listing 0 Tiny.rootEntries ∧
    (∀ r ∈ replies ++ [last], ∀ e ∈ Tiny.rootEntries, direntSize e.name ≤ r.size) ∧ (∀ r ∈ replies, r.result ≠ 0) ∧
    last.result = 0 ∧ ¬ Complete (replies ++ [last]) Tiny.rootEntries := by
  obtain ⟨s₂, s₃, h⟩ := Tiny.listing_run 40 (a := (24, [⟨[46], 2, 2⟩]))
    (b := (24, [⟨[97], 11, 1⟩])) (c := (0, [])) (by decide +kernel)
  refine ⟨_, _, h, Tiny.listing_enumerating, ?_, by simp, rfl, fun hc => ?_⟩
  · have hsizes : ∀ e ∈ Tiny.rootEntries, direntSize e.name ≤ 40 := by decide
    simpa using hsizes
  · have := congrArg List.length hc.entries
    simp [Tiny.rootEntries] at this

end Blackmount.Vfs
