import Blackmount.Ext2.Transparent

/-!
# Ext2 — unmounting

`ext2_unmount` writes the dirty blocks of the cache back, frees every entry and returns
`EXT2_SUCCESS`.  The loop of `ext2_flush_cache` stops at the first write that fails, and its result
is not looked at.

* `flushLoop_any`: what the loop leaves, whichever writes fail.
* `foldl_save`: writes that agree where they overlap are all on the device in the end.
* `unmount_lossless_iff`: unmounting loses nothing silently if and only if no write fails, blocks are
  whole numbers of sectors, and the dirty blocks agree where they share sectors.
-/

namespace Blackmount.Ext2
open Blackmount.Lib

namespace Cache

/-- The loop that frees the entries. -/
def freeEntries : Nat → Option Nat → CacheM Unit
  | _, none => return
  | 0, some _ => fun _ => none
  | k + 1, some p => do
      let e ← entry p
      kfree e.data
      kfree p
      freeEntries k e.next

/-- `ext2_unmount` of a file system, not NULL; `groupDesc` and `fs` are the addresses of the group
descriptors and of the file system itself. -/
def ext2Unmount (groupDesc fs : Nat) : CacheM (Except Err Unit) := do
  let _ ← ext2FlushCache
  let c ← get
  freeEntries c.heap.card c.cacheHead
  kfree groupDesc
  kfree fs
  return .ok ()

/-- The cache of a mounted file system: its entries are the list `l`, and everything that
`ext2_unmount` frees is allocated, once. -/
structure Mounted (c : Cache) (groupDesc fs : Nat) (l : List Nat) : Prop where
  sectors : c.device.sectorSize ≠ 0
  rep : c.links.Rep l
  live : ∀ p ∈ l, p ∈ c.heap
  buffer : ∀ p ∈ l, (c.entries p).data ∈ c.heap
  apart : ∀ p ∈ l, ∀ q ∈ l, (c.entries p).data ≠ q
  ownBuffer : ∀ p ∈ l, ∀ q ∈ l, (c.entries p).data = (c.entries q).data → p = q
  others : ∀ x ∈ [groupDesc, fs], x ∈ c.heap ∧ ∀ p ∈ l, p ≠ x ∧ (c.entries p).data ≠ x
  descApart : groupDesc ≠ fs

/-! ### What is on the device -/

/-- The first byte of the device that belongs to the block of an entry. -/
def place (c : Cache) (p : Nat) : Nat := c.lba (c.entries p).blockNum * c.device.sectorSize

/-- The bytes that `ext2_read_block` and `ext2_write_block` move: whole sectors. -/
def moved (c : Cache) : Nat := c.sectorsPerBlock * c.device.sectorSize

/-- Byte `j` of the block of an entry, as `ext2_read_block` reads it. -/
def stored (c : Cache) (dev : Device) (p j : Nat) : Option UInt8 :=
  if j < c.moved then some (dev.bytes (c.place p + j)) else none

/-- The block of an entry is on the device, with its cached contents. -/
def Saved (c : Cache) (dev : Device) (p : Nat) : Prop :=
  ∀ j, j < c.blockSize → c.stored dev p j = some (c.mem (c.entries p).data j)

/-- The number of dirty entries. -/
def dirtyCount (c : Cache) (l : List Nat) : Nat := l.countP fun p => (c.entries p).dirty

/-- The write of the block of an entry. -/
def save (c : Cache) (dev : Device) (p : Nat) : Device :=
  dev.write (c.lba (c.entries p).blockNum) c.sectorsPerBlock (c.mem (c.entries p).data)

/-- Unmounting `c` loses nothing silently, when it returns `r` and leaves `c'`: on success every dirty block is
stored, and a write that fails is reported, with every dirty block written, written to, or kept. -/
structure Lossless (c : Cache) (l : List Nat) (r : Except Err Unit) (c' : Cache) : Prop where
  saved : r = .ok () → ∀ p ∈ l, (c.entries p).dirty = true → c.Saved c'.device p
  reported : (∃ k, k < c.dirtyCount l ∧ c.faults k = true) → r ≠ .ok () ∧
    ((∀ n, c'.faults n = c.faults (n + c.dirtyCount l)) ∨
      ∀ p ∈ l, (c.entries p).dirty = true → c.Saved c'.device p ∨ p ∈ c'.heap)

/-- No write of a dirty block fails, a dirty block is a whole number of sectors, and dirty blocks agree in the bytes
of the device that they share. -/
structure Writable (c : Cache) (l : List Nat) : Prop where
  noFault : ∀ k, k < c.dirtyCount l → c.faults k = false
  whole : c.dirtyCount l ≠ 0 → c.blockSize ≤ c.moved
  agree : ∀ p ∈ l, (c.entries p).dirty = true → ∀ q ∈ l, (c.entries q).dirty = true →
    ∀ i j, i < c.blockSize → j < c.blockSize → c.place p + i = c.place q + j →
      c.mem (c.entries p).data i = c.mem (c.entries q).data j

end Cache

/-! ### Flushing -/

section Flush

variable {c : Cache} {l : List Nat}

/-- One answer of the device has been used. -/
def Cache.asked (c : Cache) : Cache := { c with faults := fun n => c.faults (n + 1) }

theorem flushed_asked (c : Cache) : Flushed c c.asked := ⟨rfl, rfl, rfl, rfl, rfl, rfl, fun _ => rfl, fun _ => rfl, fun _ => rfl, fun _ h => h⟩

theorem Flushed.lba {c c' : Cache} (h : Flushed c c') (b : Nat) : c'.lba b = c.lba b := by
  rw [Cache.lba, h.sectors, Cache.lba]

theorem Flushed.save {c c' : Cache} (h : Flushed c c') (hm : c'.mem = c.mem) : c'.save = c.save := by
  funext dev p
  rw [Cache.save, h.lba, h.sectors, h.blockNum, h.data, hm, Cache.save]

/-- `ext2_cache_flush_entry` of a dirty entry. -/
theorem flushEntry_dirty {p : Nat} (hp : p ∈ c.heap) (hd : (c.entries p).dirty = true) (hs : c.device.sectorSize ≠ 0) :
    ext2CacheFlushEntry p c = some (if c.faults 0 then (.error .io, c.asked)
      else (.ok (), (c.asked.written (c.entries p).blockNum (c.mem (c.entries p).data)).cleaned p)) := by
  rw [ext2CacheFlushEntry, bind_run, entry_run hp, Option.bind_some]
  dsimp only
  rw [hd, if_neg (by decide), bind_run, ext2WriteBlock, if_neg hs]
  dsimp only
  cases c.faults 0 with
  | true => rfl
  | false =>
      rw [if_neg (by decide), if_neg (by decide), Option.bind_some]
      have hset := setEntry_run (c := c.asked.written (c.entries p).blockNum (c.mem (c.entries p).data)) hp fun e => { e with dirty := false }
      exact congrArg (fun o : Option (Unit × Cache) => o.bind fun q => some (Except.ok (), q.2)) hset

/-- **What the loop leaves**: the writes of the dirty entries, if none of them fails. -/
theorem flushLoop_any (ys : List Nat) : ∀ {xs : List Nat} {k : Nat} {c : Cache}, c.links.Rep (xs ++ ys) →
    (∀ p ∈ ys, p ∈ c.heap) → ys.length ≤ k → c.device.sectorSize ≠ 0 →
    ∃ r c', flushLoop k ys.head? c = some (r, c') ∧ Flushed c c' ∧ c'.mem = c.mem ∧
      ((∀ i, i < c.dirtyCount ys → c.faults i = false) →
        c'.device = (ys.filter fun p => (c.entries p).dirty).foldl c.save c.device) := by
  induction ys with
  | nil =>
      intro xs k c _ _ _ _
      exact ⟨.ok (), c, by cases k <;> rfl, .refl c, rfl, fun _ => rfl⟩
  | cons y ys ih =>
      intro xs k c hrep hlive hk hs
      obtain ⟨k, rfl⟩ : ∃ k', k = k' + 1 := ⟨k - 1, by simp only [List.length_cons] at hk; omega⟩
      have hk : ys.length ≤ k := by simpa using hk
      have hy := hlive y List.mem_cons_self
      have hrep' : c.links.Rep (xs ++ [y] ++ ys) := by simpa using hrep
      have hnot : y ∉ ys := (List.nodup_cons.mp (List.nodup_append.mp hrep.nodup).2.1).1
      rw [List.head?_cons, flushLoop, bind_run, entry_run hy, Option.bind_some]
      dsimp only
      cases hd : (c.entries y).dirty with
      | false =>
          have hnext : (c.entries y).next = ys.head? := hrep.next rfl
          rw [if_neg (by decide), bind_run, entry_run hy, Option.bind_some]
          dsimp only
          rw [hnext]
          obtain ⟨r, c', hrun, hF, hm, hdev⟩ := ih hrep' (fun p hp => hlive p (List.mem_cons_of_mem _ hp)) hk hs
          refine ⟨r, c', hrun, hF, hm, fun hf => ?_⟩
          have hcount : c.dirtyCount (y :: ys) = c.dirtyCount ys := List.countP_cons_of_neg (by simp [hd])
          rw [hdev (by rwa [hcount] at hf), List.filter_cons_of_neg (by simp [hd])]
      | true =>
          rw [if_pos rfl, bind_run, flushEntry_dirty hy hd hs, Option.bind_some]
          have hcount : c.dirtyCount (y :: ys) = c.dirtyCount ys + 1 := List.countP_cons_of_pos hd
          cases hfault : c.faults 0 with
          | true =>
              refine ⟨_, _, rfl, flushed_asked c, rfl, fun hf => ?_⟩
              have := hf 0 (by omega)
              rw [hfault] at this
              cases this
          | false =>
              rw [if_neg (by decide)]
              obtain ⟨c₁, hc₁⟩ : ∃ c₁, c₁ = (c.asked.written (c.entries y).blockNum (c.mem (c.entries y).data)).cleaned y := ⟨_, rfl⟩
              have hF₁ : Flushed c c₁ := hc₁ ▸ (flushed_asked c).trans (flushed_cleaned c.asked y _ _)
              have hy₁ : y ∈ c₁.heap := by rw [hF₁.heap]; exact hy
              have hrep₁ : c₁.links.Rep (xs ++ [y] ++ ys) := by rw [hF₁.links]; exact hrep'
              have hsplit : xs ++ [y] ++ ys = xs ++ y :: ys := by simp
              have hnext : (c₁.entries y).next = ys.head? := hrep₁.next hsplit
              have hs₁ : c₁.device.sectorSize ≠ 0 := by rw [hc₁]; exact hs
              rw [← hc₁]
              dsimp only
              rw [bind_run, entry_run hy₁, Option.bind_some]
              dsimp only
              rw [hnext]
              obtain ⟨r, c', hrun, hF, hm, hdev⟩ := ih hrep₁
                (fun p hp => by rw [hF₁.heap]; exact hlive p (List.mem_cons_of_mem _ hp)) hk hs₁
              have hm₁ : c₁.mem = c.mem := by rw [hc₁]; rfl
              refine ⟨r, c', hrun, hF₁.trans hF, hm.trans hm₁, fun hf => ?_⟩
              -- the flags behind `y` are as they were
              have hflag : ∀ p ∈ ys, (c₁.entries p).dirty = (c.entries p).dirty := fun p hp => by
                have hne : p ≠ y := fun e => hnot (e ▸ hp)
                rw [hc₁]
                simp [Cache.cleaned, Cache.written, Cache.asked, hne]
              have hcount₁ : c₁.dirtyCount ys = c.dirtyCount ys := List.countP_congr fun p hp => by rw [hflag p hp]
              rw [hdev fun i hi => ?_, List.filter_congr hflag,
                List.filter_cons_of_pos (p := fun p => (c.entries p).dirty) hd, List.foldl_cons, hF₁.save hm₁, hc₁]
              · rfl
              · rw [hc₁]
                exact hf (i + 1) (by omega)

/-- What a write leaves of the device. -/
theorem save_bytes (c : Cache) (dev : Device) (hs : dev.sectorSize = c.device.sectorSize) (p x : Nat) :
    (c.save dev p).bytes x =
      if c.place p ≤ x ∧ x < c.place p + c.moved then c.mem (c.entries p).data (x - c.place p) else dev.bytes x := by
  rw [Cache.save, Device.write]
  dsimp only
  rw [hs, splice]
  rfl

/-- **Writes that agree** where they overlap are all on the device in the end, with what agreed with them before. -/
theorem foldl_save {D : Nat → Prop} (hagree : ∀ p, D p → ∀ q, D q → ∀ i j, i < c.moved → j < c.moved →
      c.place p + i = c.place q + j → c.mem (c.entries p).data i = c.mem (c.entries q).data j)
    (W : List Nat) (hW : ∀ p ∈ W, D p) {dev : Device} (hs : dev.sectorSize = c.device.sectorSize) {p : Nat} (hp : D p)
    (h : p ∈ W ∨ ∀ j, j < c.moved → dev.bytes (c.place p + j) = c.mem (c.entries p).data j) :
    ∀ j, j < c.moved → (W.foldl c.save dev).bytes (c.place p + j) = c.mem (c.entries p).data j := by
  induction W generalizing dev with
  | nil => exact h.resolve_left List.not_mem_nil
  | cons q W ih =>
      refine ih (fun p hp => hW p (List.mem_cons_of_mem _ hp)) (show (c.save dev q).sectorSize = c.device.sectorSize from hs) ?_
      have hq := hW q List.mem_cons_self
      have hafter : ∀ j, j < c.moved → p = q ∨ dev.bytes (c.place p + j) = c.mem (c.entries p).data j →
          (c.save dev q).bytes (c.place p + j) = c.mem (c.entries p).data j := by
        intro j hj hor
        rw [save_bytes c dev hs]
        split
        · next hin => exact (hagree p hp q hq j _ hj (by omega) (by omega)).symm
        · next hout =>
            rcases hor with rfl | hdev
            · omega
            · exact hdev
      rcases h with hmem | hdev
      · rcases List.mem_cons.mp hmem with rfl | hmem
        · exact .inr fun j hj => hafter j hj (.inl rfl)
        · exact .inl hmem
      · exact .inr fun j hj => hafter j hj (.inr (hdev j hj))

end Flush

/-! ### Freeing -/

/-- The loop frees the entries and their buffers. -/
theorem freeEntries_run (ys : List Nat) : ∀ {xs : List Nat} {k : Nat} {c : Cache}, c.links.Rep (xs ++ ys) →
    (∀ p ∈ ys, p ∈ c.heap ∧ (c.entries p).data ∈ c.heap) → (∀ p ∈ ys, ∀ q ∈ ys, (c.entries p).data ≠ q) →
    (∀ p ∈ ys, ∀ q ∈ ys, (c.entries p).data = (c.entries q).data → p = q) → ys.length ≤ k →
    ∃ H, Cache.freeEntries k ys.head? c = some ((), { c with heap := H }) ∧
      ∀ x, x ∈ H ↔ x ∈ c.heap ∧ ∀ p ∈ ys, p ≠ x ∧ (c.entries p).data ≠ x := by
  induction ys with
  | nil =>
      intro xs k c _ _ _ _ _
      exact ⟨c.heap, by cases k <;> rfl, fun x => by simp⟩
  | cons y ys ih =>
      intro xs k c hrep hlive hapart hown hk
      obtain ⟨k, rfl⟩ : ∃ k', k = k' + 1 := ⟨k - 1, by simp only [List.length_cons] at hk; omega⟩
      obtain ⟨hy, hdata⟩ := hlive y List.mem_cons_self
      have hnot : y ∉ ys := (List.nodup_cons.mp (List.nodup_append.mp hrep.nodup).2.1).1
      have hnext : (c.entries y).next = ys.head? := hrep.next rfl
      have hsplit : c.links.Rep (xs ++ [y] ++ ys) := by simpa using hrep
      have hself := hapart y List.mem_cons_self y List.mem_cons_self
      obtain ⟨c₁, hc₁⟩ : ∃ c₁ : Cache, c₁ = { c with heap := (c.heap.erase (c.entries y).data).erase y } := ⟨_, rfl⟩
      -- the other entries and their buffers are still allocated
      have hkeep : ∀ x, x ∈ c₁.heap ↔ x ∈ c.heap ∧ y ≠ x ∧ (c.entries y).data ≠ x := fun x => by
        rw [hc₁]
        simp only [Finset.mem_erase]
        tauto
      have hlive₁ : ∀ p ∈ ys, p ∈ c₁.heap ∧ (c₁.entries p).data ∈ c₁.heap := fun p hp => by
        have hp' := List.mem_cons_of_mem y hp
        have hne : y ≠ p := fun e => hnot (e ▸ hp)
        rw [hkeep, hkeep, hc₁]
        exact ⟨⟨(hlive p hp').1, hne, hapart y List.mem_cons_self p hp'⟩, (hlive p hp').2,
          (hapart p hp' y List.mem_cons_self).symm, fun e => hne (hown y List.mem_cons_self p hp' e)⟩
      obtain ⟨H, hrun, hH⟩ := ih (c := c₁) (k := k) (by rw [hc₁]; exact hsplit) hlive₁
        (fun p hp q hq => by rw [hc₁]; exact hapart p (List.mem_cons_of_mem _ hp) q (List.mem_cons_of_mem _ hq))
        (fun p hp q hq => by rw [hc₁]; exact hown p (List.mem_cons_of_mem _ hp) q (List.mem_cons_of_mem _ hq))
        (by simpa using hk)
      refine ⟨H, ?_, fun x => ?_⟩
      · rw [List.head?_cons, Cache.freeEntries, bind_run, entry_run hy, Option.bind_some]
        dsimp only
        rw [bind_run, kfree_run hdata, Option.bind_some, bind_run,
          kfree_run (c := { c with heap := c.heap.erase (c.entries y).data }) (Finset.mem_erase.mpr ⟨hself.symm, hy⟩),
          Option.bind_some, hnext]
        rw [hc₁] at hrun
        exact hrun
      · rw [hH, hkeep, hc₁]
        simp only [List.mem_cons, forall_eq_or_imp]
        tauto

/-! ### Unmounting -/

section Unmount

variable {c : Cache} {groupDesc fs : Nat} {l : List Nat}

/-- **`ext2_unmount` always returns `EXT2_SUCCESS`**, keeps no entry, and the device has the writes of the dirty
entries if none of them fails. -/
theorem unmount_run (h : c.Mounted groupDesc fs l) : ∃ c', Cache.ext2Unmount groupDesc fs c = some (.ok (), c') ∧
    (∀ p ∈ l, p ∉ c'.heap) ∧ ((∀ i, i < c.dirtyCount l → c.faults i = false) →
      c'.device = (l.filter fun p => (c.entries p).dirty).foldl c.save c.device) := by
  have hhead : c.cacheHead = l.head? := h.rep.head
  obtain ⟨r, c₁, hflush, hF, hm, hdev⟩ := flushLoop_any l (show c.links.Rep ([] ++ l) from h.rep) h.live
    (length_le_card h.rep h.live) h.sectors
  have hrep₁ : c₁.links.Rep ([] ++ l) := by rw [hF.links]; exact h.rep
  obtain ⟨H, hfree, hH⟩ := freeEntries_run l hrep₁ (k := c₁.heap.card)
    (fun p hp => by rw [hF.heap, hF.data]; exact ⟨h.live p hp, h.buffer p hp⟩)
    (fun p hp q hq => by rw [hF.data]; exact h.apart p hp q hq)
    (fun p hp q hq => by rw [hF.data, hF.data]; exact h.ownBuffer p hp q hq)
    (by rw [hF.heap]; exact length_le_card h.rep h.live)
  have hhead₁ : c₁.cacheHead = l.head? := hrep₁.head
  rw [← hhead₁] at hfree
  have hother : ∀ x ∈ [groupDesc, fs], x ∈ H := fun x hx => by
    rw [hH, hF.heap]
    refine ⟨(h.others x hx).1, fun p hp => ?_⟩
    rw [hF.data]
    exact (h.others x hx).2 p hp
  refine ⟨{ c₁ with heap := (H.erase groupDesc).erase fs }, ?_, fun p hp hmem => ?_, hdev⟩
  · rw [Cache.ext2Unmount, bind_run, ext2FlushCache, get_bind, hhead, hflush, Option.bind_some, get_bind,
      bind_run, hfree, Option.bind_some, bind_run,
      kfree_run (c := { c₁ with heap := H }) (hother _ List.mem_cons_self), Option.bind_some, bind_run,
      kfree_run (c := { c₁ with heap := H.erase groupDesc })
        (Finset.mem_erase.mpr ⟨h.descApart.symm, hother _ (by simp)⟩)]
    rfl
  · have := (hH p).mp (Finset.mem_of_mem_erase (Finset.mem_of_mem_erase hmem))
    exact (this.2 p hp).1 rfl

/-- **Unmounting loses nothing silently** if and only if no write of a dirty block fails, a dirty block is a whole
number of sectors, and dirty blocks agree in the bytes of the device that they share. -/
theorem unmount_lossless_iff (h : c.Mounted groupDesc fs l) :
    (∃ r c', Cache.ext2Unmount groupDesc fs c = some (r, c') ∧ c.Lossless l r c') ↔ c.Writable l := by
  obtain ⟨c', hrun, -, hdev⟩ := unmount_run h
  have hmoved : c.moved ≤ c.blockSize := Nat.div_mul_le_self _ _
  constructor
  · rintro ⟨r, c₁, hrun₁, hl⟩
    obtain ⟨rfl, rfl⟩ := Prod.mk.inj (Option.some.inj (hrun.symm.trans hrun₁))
    have hsaved := hl.saved rfl
    have hbyte : ∀ p ∈ l, (c.entries p).dirty = true → ∀ j, j < c.blockSize →
        j < c.moved ∧ c'.device.bytes (c.place p + j) = c.mem (c.entries p).data j := by
      intro p hp hd j hj
      have := hsaved p hp hd j hj
      rw [Cache.stored] at this
      split at this
      · next hin => exact ⟨hin, Option.some.inj this⟩
      · cases this
    refine ⟨fun k hk => ?_, fun hcount => ?_, fun p hp hdp q hq hdq i j hi hj he => ?_⟩
    · by_contra hf
      exact (hl.reported ⟨k, hk, by simpa using hf⟩).1 rfl
    · obtain ⟨p, hp, hd⟩ := List.countP_pos_iff.mp (Nat.pos_of_ne_zero hcount)
      by_contra hlt
      have := (hbyte p hp hd c.moved (by omega)).1
      omega
    · rw [← (hbyte p hp hdp i hi).2, ← (hbyte q hq hdq j hj).2, he]
  · intro hw
    refine ⟨_, _, hrun, fun _ p hp hd j hj => ?_, fun ⟨k, hk, hf⟩ => ?_⟩
    · have hle : c.blockSize ≤ c.moved := hw.whole (Nat.ne_of_gt (List.countP_pos_iff.mpr ⟨p, hp, hd⟩))
      have hdirty : ∀ q, q ∈ l.filter (fun p => (c.entries p).dirty) ↔ q ∈ l ∧ (c.entries q).dirty = true := fun q => List.mem_filter
      rw [Cache.stored, if_pos (by omega), hdev hw.noFault]
      refine congrArg some (foldl_save (D := fun q => q ∈ l ∧ (c.entries q).dirty = true) ?_ _
        (fun q hq => (hdirty q).mp hq) rfl ⟨hp, hd⟩ (.inl ((hdirty p).mpr ⟨hp, hd⟩)) j (by omega))
      intro p hp q hq i j hi hj he
      exact hw.agree p hp.1 hp.2 q hq.1 hq.2 i j (by omega) (by omega) he
    · rw [hw.noFault k hk] at hf
      cases hf

end Unmount

/-- A cache with one dirty entry, for block 3. -/
def oneDirty (faults : Nat → Bool) : Cache where
  device := ⟨fun _ => 0, 512, 64⟩
  blockSize := 1024
  cacheHead := some 1
  cacheTail := some 1
  cacheSize := 1
  maxCacheEntries := 64
  entries _ := ⟨3, 2, true, 0, none, none⟩
  mem _ _ := 7
  heap := {1, 2, 5, 6}
  faults := faults

theorem oneDirty_mounted (faults : Nat → Bool) : (oneDirty faults).Mounted 5 6 [1] where
  sectors := by simp [oneDirty]
  rep := by
    refine ⟨rfl, rfl, List.nodup_singleton 1, fun {us e vs} h => ?_, fun {us e vs} h => ?_⟩ <;>
    · cases us with
      | nil =>
          cases h
          rfl
      | cons u us => simp at h
  live := by simp [oneDirty]
  buffer := by simp [oneDirty]
  apart := by simp [oneDirty]
  ownBuffer := by simp [oneDirty]
  others := by simp [oneDirty]
  descApart := by decide

/-- The dirty block is stored, for instance, if the device takes every write. -/
theorem unmount_lossless_iff_oneDirty :
    (∃ r c', Cache.ext2Unmount 5 6 (oneDirty fun _ => false) = some (r, c') ∧ (oneDirty fun _ => false).Lossless [1] r c') ↔
      (oneDirty fun _ => false).Writable [1] :=
  unmount_lossless_iff (oneDirty_mounted _)

/-- **A write that fails** is not reported. -/
theorem refused_write_unreported : ¬ ∃ r c', Cache.ext2Unmount 5 6 (oneDirty fun _ => true) = some (r, c') ∧
    (oneDirty fun _ => true).Lossless [1] r c' := by
  rintro ⟨r, c', hrun, hl⟩
  obtain ⟨c₁, hok, -, -⟩ := unmount_run (oneDirty_mounted fun _ => true)
  obtain ⟨rfl, rfl⟩ := Prod.mk.inj (Option.some.inj (hrun.symm.trans hok))
  exact (hl.reported ⟨0, by decide, rfl⟩).1 rfl

end Blackmount.Ext2
