import Blackmount.Ext2.CacheList
import Blackmount.Lib.Run
import Mathlib.Data.Finset.Lattice.Fold
import Mathlib.Order.Lattice.Nat

/-!
# Ext2 — the cache is transparent

A client of the cache pins blocks with `ext2_get_block`, changes their buffers while it holds them,
and gives them back with `ext2_put_block`.  Beside the cache runs a plain array of blocks, to which
the same changes are made.  `CacheInv` ties the two together: what is cached has the array's
contents, and a block that is not cached, or is clean and not being changed, has them on the device.

The device address of a block is computed in 32 bits, so two blocks can share one; the invariant is
about the blocks that have an address of their own (`Fits`).
-/

namespace Blackmount.Ext2
open Blackmount.Lib

/-- A buffer a client holds. -/
structure Pin where
  block : Nat
  data : Nat
  deriving DecidableEq, Repr

/-- The cache, its clients, and the plain array.  `touched` tells which blocks have been changed
since they were last put dirty. -/
structure CacheSys where
  cache : Cache
  pins : List Pin
  array : Nat → Bytes
  touched : Nat → Bool

inductive CacheOp where
  | get (block : Nat) (choose : Finset Nat → Option Nat)
  | modify (k : Nat) (data : Bytes)
  | put (k : Nat) (dirty : Bool)
  | flush

/-- A client writes `data` over the first `block_size` bytes of a buffer. -/
def Cache.fill (c : Cache) (buffer : Nat) (data : Bytes) : Cache :=
  { c with mem := Function.update c.mem buffer (splice (c.mem buffer) 0 c.blockSize data) }

def cacheStep (s : CacheSys) : CacheOp → Option CacheSys
  | .get block choose => do
      let (r, c) ← ext2GetBlock block choose s.cache
      match r with
      | none => return { s with cache := c }
      | some d => return { s with cache := c, pins := s.pins ++ [⟨block, d⟩] }
  | .modify k data => do
      let q ← s.pins[k]?
      return { s with
        cache := s.cache.fill q.data data
        array := Function.update s.array q.block data
        touched := Function.update s.touched q.block true }
  | .put k dirty => do
      let q ← s.pins[k]?
      let (_, c) ← ext2PutBlock q.data dirty s.cache
      return { s with
        cache := c
        pins := s.pins.eraseIdx k
        touched := if dirty then Function.update s.touched q.block false else s.touched }
  | .flush => do
      let (_, c) ← ext2FlushCache s.cache
      return { s with cache := c }

/-! ### Blocks on the device -/

/-- The address of the block fits in 32 bits. -/
def Cache.Fits (c : Cache) (b : Nat) : Prop := b * c.sectorsPerBlock < 2 ^ 32

/-- What the device holds of block `b`. -/
def Cache.onDevice (c : Cache) (b : Nat) : Bytes := c.device.block c.blockSize b

/-- A block is a whole number of sectors. -/
def Cache.Whole (c : Cache) : Prop := 0 < c.device.sectorSize ∧ c.device.sectorSize ∣ c.blockSize

theorem sectors_mul {c : Cache} (hw : c.Whole) :
    c.sectorsPerBlock * c.device.sectorSize = c.blockSize :=
  Nat.div_mul_cancel hw.2

theorem lba_fits {c : Cache} {b : Nat} (hf : c.Fits b) : c.lba b = b * c.sectorsPerBlock :=
  Nat.mod_eq_of_lt hf

theorem onDevice_apply {c : Cache} (hw : c.Whole) {b j : Nat} (hf : c.Fits b) (hj : j < c.blockSize) :
    c.onDevice b j = c.device.bytes (b * c.blockSize + j) := by
  have hl : u32 (b * (c.blockSize / c.device.sectorSize)) = b * c.sectorsPerBlock := lba_fits hf
  have hm := sectors_mul hw
  simp only [Cache.onDevice, Device.block, Device.read, hl, slice]
  rw [show c.blockSize / c.device.sectorSize * c.device.sectorSize = c.blockSize from hm, if_pos hj,
    Nat.mul_assoc, hm]

/-- The cache after block `b` has been written to the device. -/
def Cache.written (c : Cache) (b : Nat) (data : Bytes) : Cache :=
  { c with device := c.device.write (c.lba b) c.sectorsPerBlock data }

theorem onDevice_written {c : Cache} (hw : c.Whole) {b b' j : Nat} (hf : c.Fits b) (hf' : c.Fits b')
    (hj : j < c.blockSize) (data : Bytes) :
    (c.written b data).onDevice b' j = if b' = b then data j else c.onDevice b' j := by
  have hnew := onDevice_apply (c := c.written b data) hw (b := b') (j := j) hf' hj
  rw [hnew, onDevice_apply hw hf' hj]
  simp only [Cache.written, Device.write, lba_fits hf, Nat.mul_assoc, sectors_mul hw, splice]
  by_cases e : b' = b
  · subst e
    rw [if_pos ⟨by omega, by omega⟩, if_pos rfl]
    congr 1
    omega
  · rw [if_neg e, if_neg]
    rintro ⟨h1, h2⟩
    rcases Nat.lt_or_gt_of_ne e with hlt | hlt
    · have := Nat.mul_le_mul_right c.blockSize hlt
      simp only [Nat.succ_mul] at this
      omega
    · have := Nat.mul_le_mul_right c.blockSize hlt
      simp only [Nat.succ_mul] at this
      omega

/-! ### The invariant -/

/-- The list `l` of entries, the pins and the plain array agree with the cache and the device. -/
structure CacheInv (c : Cache) (pins : List Pin) (array : Nat → Bytes) (touched : Nat → Bool)
    (l : List Nat) : Prop where
  whole : c.Whole
  sound : c.faults = fun _ => false
  small : c.maxCacheEntries < 2 ^ 32
  rep : c.links.Rep l
  size : c.cacheSize = l.length
  bound : l.length ≤ c.maxCacheEntries
  live : ∀ p ∈ l, p ∈ c.heap
  buffer : ∀ p ∈ l, (c.entries p).data ∈ c.heap
  apart : ∀ p ∈ l, ∀ q ∈ l, (c.entries p).data ≠ q
  ownBuffer : ∀ p ∈ l, ∀ q ∈ l, (c.entries p).data = (c.entries q).data → p = q
  ownBlock : ∀ p ∈ l, ∀ q ∈ l, (c.entries p).blockNum = (c.entries q).blockNum → p = q
  fits : ∀ p ∈ l, c.Fits (c.entries p).blockNum
  pinned : ∀ q ∈ pins, ∃ p ∈ l, (c.entries p).blockNum = q.block ∧ (c.entries p).data = q.data
  count : ∀ p ∈ l, (c.entries p).refCount = pins.countP fun q => q.block == (c.entries p).blockNum
  word : ∀ p ∈ l, (c.entries p).refCount < 2 ^ 32
  contents : ∀ p ∈ l, ∀ j, j < c.blockSize →
    c.mem (c.entries p).data j = array (c.entries p).blockNum j
  clean : ∀ p ∈ l, (c.entries p).dirty = false → touched (c.entries p).blockNum = false →
    ∀ j, j < c.blockSize → c.onDevice (c.entries p).blockNum j = array (c.entries p).blockNum j
  absent : ∀ b, c.Fits b → (∀ p ∈ l, (c.entries p).blockNum ≠ b) →
    ∀ j, j < c.blockSize → c.onDevice b j = array b j
  held : ∀ b, touched b = true → ∃ q ∈ pins, q.block = b

section Cache

variable {c : Cache} {pins : List Pin} {array : Nat → Bytes} {touched : Nat → Bool} {l : List Nat}
  {p : Nat}

/-- Another order of the list. -/
theorem CacheInv.relink (h : CacheInv c pins array touched l) {k : Links Nat} {l' : List Nat}
    (hk : k.Rep l') (hl : l'.Perm l) : CacheInv (c.relink k c.cacheSize) pins array touched l' where
  whole := h.whole
  sound := h.sound
  small := h.small
  rep := hk
  size := by rw [hl.length_eq]; exact h.size
  bound := by rw [hl.length_eq]; exact h.bound
  live p hp := h.live p (hl.subset hp)
  buffer p hp := h.buffer p (hl.subset hp)
  apart p hp q hq := h.apart p (hl.subset hp) q (hl.subset hq)
  ownBuffer p hp q hq := h.ownBuffer p (hl.subset hp) q (hl.subset hq)
  ownBlock p hp q hq := h.ownBlock p (hl.subset hp) q (hl.subset hq)
  fits p hp := h.fits p (hl.subset hp)
  pinned q hq := by
    obtain ⟨p, hp, hb⟩ := h.pinned q hq
    exact ⟨p, hl.symm.subset hp, hb⟩
  count p hp := h.count p (hl.subset hp)
  word p hp := h.word p (hl.subset hp)
  contents p hp := h.contents p (hl.subset hp)
  clean p hp := h.clean p (hl.subset hp)
  absent b hb hne := h.absent b hb fun p hp => hne p (hl.symm.subset hp)
  held := h.held

/-- An entry without a reference is not pinned, so its block is not being changed. -/
theorem CacheInv.untouched (h : CacheInv c pins array touched l) (hp : p ∈ l)
    (hr : (c.entries p).refCount = 0) : touched (c.entries p).blockNum = false := by
  by_contra ht
  obtain ⟨q, hq, hb⟩ := h.held _ (by simpa using ht)
  have hcount := h.count p hp
  rw [hr] at hcount
  exact absurd (by simpa using hb) (List.countP_eq_zero.mp hcount.symm q hq)

/-! ### Writing back -/

/-- The cache with the dirty flag of an entry cleared. -/
def Cache.cleaned (c : Cache) (p : Nat) : Cache :=
  { c with entries := Function.update c.entries p { c.entries p with dirty := false } }

/-- Only device and dirty flags differ, and no flag has been set. -/
structure Flushed (c c' : Cache) : Prop where
  links : c'.links = c.links
  heap : c'.heap = c.heap
  cacheSize : c'.cacheSize = c.cacheSize
  maxCacheEntries : c'.maxCacheEntries = c.maxCacheEntries
  blockSize : c'.blockSize = c.blockSize
  sectors : c'.sectorsPerBlock = c.sectorsPerBlock
  blockNum : ∀ q, (c'.entries q).blockNum = (c.entries q).blockNum
  data : ∀ q, (c'.entries q).data = (c.entries q).data
  refCount : ∀ q, (c'.entries q).refCount = (c.entries q).refCount
  dirty : ∀ q, (c.entries q).dirty = false → (c'.entries q).dirty = false

theorem Flushed.refl (c : Cache) : Flushed c c :=
  ⟨rfl, rfl, rfl, rfl, rfl, rfl, fun _ => rfl, fun _ => rfl, fun _ => rfl, fun _ h => h⟩

theorem Flushed.trans {a b c : Cache} (h₁ : Flushed a b) (h₂ : Flushed b c) : Flushed a c where
  links := h₂.links.trans h₁.links
  heap := h₂.heap.trans h₁.heap
  cacheSize := h₂.cacheSize.trans h₁.cacheSize
  maxCacheEntries := h₂.maxCacheEntries.trans h₁.maxCacheEntries
  blockSize := h₂.blockSize.trans h₁.blockSize
  sectors := h₂.sectors.trans h₁.sectors
  blockNum q := (h₂.blockNum q).trans (h₁.blockNum q)
  data q := (h₂.data q).trans (h₁.data q)
  refCount q := (h₂.refCount q).trans (h₁.refCount q)
  dirty q hq := h₂.dirty q (h₁.dirty q hq)

theorem flushed_cleaned (c : Cache) (p : Nat) (b : Nat) (data : Bytes) :
    Flushed c ((c.written b data).cleaned p) := by
  have hup : ∀ {β : Type} (f : CacheEntry → β), f { c.entries p with dirty := false } = f (c.entries p) →
      ∀ q, f (((c.written b data).cleaned p).entries q) = f (c.entries q) := by
    intro β f hf q
    by_cases e : q = p
    · subst e; simpa [Cache.cleaned, Cache.written] using hf
    · simp [Cache.cleaned, Cache.written, e]
  refine ⟨?_, rfl, rfl, rfl, rfl, rfl, hup _ rfl, hup _ rfl, hup _ rfl, fun q hq => ?_⟩
  · have hn := hup CacheEntry.next rfl
    have hp := hup CacheEntry.prev rfl
    simp only [Cache.links, hn, hp]
    rfl
  · by_cases e : q = p
    · subst e; simp [Cache.cleaned]
    · simpa [Cache.cleaned, Cache.written, e] using hq

theorem CacheInv.writeBack (h : CacheInv c pins array touched l) (hp : p ∈ l) :
    CacheInv ((c.written (c.entries p).blockNum (c.mem (c.entries p).data)).cleaned p)
      pins array touched l := by
  have hF := flushed_cleaned c p (c.entries p).blockNum (c.mem (c.entries p).data)
  have hdev : ∀ b, c.Fits b → ∀ j, j < c.blockSize →
      ((c.written (c.entries p).blockNum (c.mem (c.entries p).data)).cleaned p).onDevice b j =
        if b = (c.entries p).blockNum then c.mem (c.entries p).data j else c.onDevice b j :=
    fun b hb j hj => onDevice_written h.whole (h.fits p hp) hb hj _
  constructor
  · exact h.whole
  · exact h.sound
  · exact h.small
  · rw [hF.links]; exact h.rep
  · exact h.size
  · exact h.bound
  · exact h.live
  · intro q hq
    rw [hF.data, hF.heap]
    exact h.buffer q hq
  · intro q hq r hr
    rw [hF.data]
    exact h.apart q hq r hr
  · intro q hq r hr
    rw [hF.data, hF.data]
    exact h.ownBuffer q hq r hr
  · intro q hq r hr
    rw [hF.blockNum, hF.blockNum]
    exact h.ownBlock q hq r hr
  · intro q hq
    rw [hF.blockNum]
    exact h.fits q hq
  · intro q hq
    obtain ⟨r, hr, hb, hd⟩ := h.pinned q hq
    exact ⟨r, hr, by rw [hF.blockNum, hb], by rw [hF.data, hd]⟩
  · intro q hq
    rw [hF.refCount, hF.blockNum]
    exact h.count q hq
  · intro q hq
    rw [hF.refCount]
    exact h.word q hq
  · intro q hq
    rw [hF.data, hF.blockNum]
    exact h.contents q hq
  · intro q hq hd ht j hj
    rw [hF.blockNum] at ht ⊢
    rw [hdev _ (h.fits q hq) j hj]
    split
    · next e =>
        -- the entry that was written back
        have : q = p := h.ownBlock q hq p hp e
        subst this
        exact h.contents q hq j hj
    · next e =>
        have hne : q ≠ p := fun e' => e (by rw [e'])
        refine h.clean q hq ?_ ht j hj
        simpa [Cache.cleaned, Cache.written, hne] using hd
  · intro b hb hne j hj
    have hne' : ∀ r ∈ l, (c.entries r).blockNum ≠ b := fun r hr => by
      have := hne r hr
      rwa [hF.blockNum] at this
    rw [hdev b hb j hj, if_neg fun e => hne' p hp e.symm]
    exact h.absent b hb hne' j hj
  · exact h.held

theorem writeBlock_run (h : CacheInv c pins array touched l) (b d : Nat) :
    ext2WriteBlock b d c = some (.ok (), c.written b (c.mem d)) := by
  have hf : c.faults 0 = false := by rw [h.sound]
  have hs : (fun n => c.faults (n + 1)) = c.faults := by rw [h.sound]
  have h0 : c.device.sectorSize ≠ 0 := Nat.ne_of_gt h.whole.1
  simp [ext2WriteBlock, hf, hs, h0, Cache.written]

/-- `ext2_cache_flush_entry` of an entry of the list. -/
theorem flushEntry_run (h : CacheInv c pins array touched l) (hp : p ∈ l) :
    Reaches (ext2CacheFlushEntry p) c fun r c' => r = .ok () ∧ Flushed c c' ∧
      CacheInv c' pins array touched l ∧ (c'.entries p).dirty = false := by
  have hlive := h.live p hp
  refine .step (entry_run hlive) ?_
  split
  · next hd => exact .pure ⟨rfl, .refl c, h, hd⟩
  · refine .step (writeBlock_run h _ _) ?_
    refine .step (setEntry_run (c := c.written _ _) hlive _) (.pure ⟨rfl, flushed_cleaned _ _ _ _, h.writeBack hp, ?_⟩)
    simp

/-! ### Eviction -/

/-- An entry without a reference, clean, is taken out of the list and its memory given back. -/
theorem CacheInv.dropped (h : CacheInv c pins array touched l) {xs ys : List Nat}
    (he : l = xs ++ p :: ys) (hr : (c.entries p).refCount = 0) (hd : (c.entries p).dirty = false) :
    CacheInv { c.relink (c.links.unlink p) (sub32 c.cacheSize 1) with
      heap := (c.heap.erase (c.entries p).data).erase p } pins array touched (xs ++ ys) := by
  have hp : p ∈ l := by simp [he]
  have hsub : ∀ q, q ∈ xs ++ ys → q ∈ l ∧ q ≠ p := by
    intro q hq
    have hnd := h.rep.nodup
    rw [he] at hnd
    have hq' : q ∈ l := by rw [he]; simp at hq ⊢; tauto
    refine ⟨hq', ?_⟩
    rintro rfl
    rcases List.mem_append.mp hq with hm | hm
    · exact (List.nodup_append.mp hnd).2.2 q hm q (by simp) rfl
    · exact (List.nodup_cons.mp (List.nodup_append.mp hnd).2.1).1 hm
  have hmem : ∀ q, q ∈ l → q ≠ p → q ∈ xs ++ ys := by
    intro q hq hne
    rw [he] at hq
    simp at hq ⊢
    tauto
  have hlen : l.length = (xs ++ ys).length + 1 := by rw [he]; simp; omega
  have hlt : l.length < 2 ^ 32 := lt_of_le_of_lt h.bound h.small
  constructor
  · exact h.whole
  · exact h.sound
  · exact h.small
  · exact h.rep.unlink he
  · change sub32 c.cacheSize 1 = _
    rw [h.size, hlen]
    simp only [sub32, u32]
    omega
  · have := h.bound
    change _ ≤ c.maxCacheEntries
    omega
  · intro q hq
    obtain ⟨hq', hne⟩ := hsub q hq
    have hdata : q ≠ (c.entries p).data := fun e => h.apart p hp q hq' e.symm
    simp [hne, hdata, h.live q hq']
  · intro q hq
    obtain ⟨hq', hne⟩ := hsub q hq
    have h1 : (c.entries q).data ≠ p := h.apart q hq' p hp
    have h2 : (c.entries q).data ≠ (c.entries p).data := fun e => hne (h.ownBuffer q hq' p hp e)
    have := h.buffer q hq'
    simpa [Cache.relink, h1, h2] using this
  · intro q hq r hr'
    exact h.apart q (hsub q hq).1 r (hsub r hr').1
  · intro q hq r hr'
    exact h.ownBuffer q (hsub q hq).1 r (hsub r hr').1
  · intro q hq r hr'
    exact h.ownBlock q (hsub q hq).1 r (hsub r hr').1
  · intro q hq
    exact h.fits q (hsub q hq).1
  · intro q hq
    obtain ⟨r, hr', hb, hdat⟩ := h.pinned q hq
    refine ⟨r, hmem r hr' ?_, hb, hdat⟩
    rintro rfl
    have hcount := h.count r hp
    rw [hr] at hcount
    exact absurd (by simpa using hb.symm) (List.countP_eq_zero.mp hcount.symm q hq)
  · intro q hq
    exact h.count q (hsub q hq).1
  · intro q hq
    exact h.word q (hsub q hq).1
  · intro q hq
    exact h.contents q (hsub q hq).1
  · intro q hq
    exact h.clean q (hsub q hq).1
  · intro b hb hne j hj
    by_cases e : (c.entries p).blockNum = b
    · subst e
      exact h.clean p hp hd (h.untouched hp hr) j hj
    · refine h.absent b hb (fun q hq => ?_) j hj
      by_cases e' : q = p
      · rw [e']; exact e
      · exact hne q (hmem q hq e')
  · exact h.held

/-- `ext2_cache_evict`: nothing can go, or one entry has gone. -/
theorem evict_run (h : CacheInv c pins array touched l) :
    Reaches ext2CacheEvict c fun r c' =>
      (r = .error .noMem ∧ c' = c ∧ ∀ p ∈ l, (c.entries p).refCount ≠ 0) ∨
      (r = .ok () ∧ c'.maxCacheEntries = c.maxCacheEntries ∧ c'.blockSize = c.blockSize ∧
        c'.sectorsPerBlock = c.sectorsPerBlock ∧
        ∃ l', CacheInv c' pins array touched l' ∧ l'.length < l.length ∧
          ∀ p ∈ l', p ∈ l ∧ (c'.entries p).blockNum = (c.entries p).blockNum) := by
  have hwalk : walk CacheEntry.prev (fun e => e.refCount == 0) c.heap.card c.cacheTail c =
      some (l.reverse.find? fun p => (c.entries p).refCount == 0, c) := by
    have := walk_prev_run h.rep h.live (fun e => e.refCount == 0) l.reverse []
      (k := c.heap.card) (by simp) (by simpa using length_le_card h.rep h.live)
    rw [List.head?_reverse, ← h.rep.tail] at this
    exact this
  refine .step (get_run c) (.step hwalk ?_)
  cases hf : l.reverse.find? fun p => (c.entries p).refCount == 0 with
  | none =>
      refine .pure (.inl ⟨rfl, rfl, fun p hp hr => ?_⟩)
      have := List.find?_eq_none.mp hf p (by simpa using hp)
      simp [hr] at this
  | some p =>
      have hp : p ∈ l := by simpa using List.mem_of_find?_eq_some hf
      have hr : (c.entries p).refCount = 0 := by simpa using List.find?_some hf
      refine .bind (flushEntry_run h hp) fun r c₁ hq => ?_
      obtain ⟨rfl, hF, h₁, hd⟩ := hq
      obtain ⟨xs, ys, he⟩ := List.append_of_mem hp
      have hr₁ : (c₁.entries p).refCount = 0 := by rw [hF.refCount, hr]
      have hinv := h₁.dropped he hr₁ hd
      refine .step (remove_run h₁.rep h₁.live he) (.step (entry_run (h₁.live p hp)) ?_)
      have hne : p ≠ (c₁.entries p).data := fun e => h₁.apart p hp p hp e.symm
      refine .step (kfree_run (c := c₁.relink _ _) (h₁.buffer p hp)) ?_
      refine .step (kfree_run ?_) (.pure (.inr ⟨rfl, hF.maxCacheEntries, hF.blockSize,
        hF.sectors, _, hinv, ?_, ?_⟩))
      · exact Finset.mem_erase.mpr ⟨hne, h₁.live p hp⟩
      · rw [he]; simp
      · intro q hq
        refine ⟨by rw [he]; simp at hq ⊢; tauto, hF.blockNum q⟩

/-! ### A new entry -/

/-- Address `p` has been allocated for an entry with buffer `d`, and the entry filled in. -/
def Cache.stocked (c : Cache) (p d b : Nat) (data : Bytes) : Cache :=
  { c with
    heap := insert d (insert p c.heap)
    entries := Function.update c.entries p
      { c.entries p with blockNum := b, data := d, dirty := false, refCount := 1 }
    mem := Function.update c.mem d data }

theorem links_stocked (c : Cache) (p d b : Nat) (data : Bytes) : (c.stocked p d b data).links = c.links := by
  have hup : ∀ (f : CacheEntry → Option Nat),
      f { c.entries p with blockNum := b, data := d, dirty := false, refCount := 1 } = f (c.entries p) →
      ∀ q, f ((c.stocked p d b data).entries q) = f (c.entries q) := by
    intro f hf q
    by_cases e : q = p
    · subst e; simpa [Cache.stocked] using hf
    · simp [Cache.stocked, e]
  have hn := hup CacheEntry.next rfl
  have hp := hup CacheEntry.prev rfl
  simp only [Cache.links, hn, hp]
  rfl

/-- The new entry in front of the list. -/
theorem CacheInv.added (h : CacheInv c pins array touched l) {d b : Nat} {data : Bytes}
    (hp : p ∉ c.heap) (hd : d ∉ insert p c.heap) (hb : c.Fits b)
    (hne : ∀ q ∈ l, (c.entries q).blockNum ≠ b) (hroom : l.length < c.maxCacheEntries)
    (hdata : ∀ j, j < c.blockSize → data j = array b j) :
    CacheInv ((c.stocked p d b data).relink (c.links.pushFront p) (u32 (c.cacheSize + 1)))
      (pins ++ [⟨b, d⟩]) array touched (p :: l) := by
  have hold : ∀ q ∈ l, q ≠ p := fun q hq e => hp (e ▸ h.live q hq)
  have hent : ∀ q ∈ l, (c.stocked p d b data).entries q = c.entries q := fun q hq => by
    simp [Cache.stocked, hold q hq]
  have hnew : (c.stocked p d b data).entries p =
      { c.entries p with blockNum := b, data := d, dirty := false, refCount := 1 } := by
    simp [Cache.stocked]
  have hdp : d ≠ p := fun e => hd (by simp [e])
  have hdh : d ∉ c.heap := fun e => hd (by simp [e])
  have hdq : ∀ q ∈ l, (c.entries q).data ≠ d := fun q hq e => hdh (e ▸ h.buffer q hq)
  have hnone : ∀ q ∈ pins, q.block ≠ b := by
    intro q hq e
    obtain ⟨r, hr, hrb, -⟩ := h.pinned q hq
    exact hne r hr (hrb.trans e)
  have hlt : l.length < 2 ^ 32 := lt_of_le_of_lt h.bound h.small
  obtain ⟨c', hc'⟩ : ∃ c', (c.stocked p d b data).relink (c.links.pushFront p)
    (u32 (c.cacheSize + 1)) = c' := ⟨_, rfl⟩
  have hdata' : ∀ q ∈ l, (c'.entries q).data = (c.entries q).data := fun q hq => by
    rw [← hc', ← hent q hq]; rfl
  have hblock' : ∀ q ∈ l, (c'.entries q).blockNum = (c.entries q).blockNum := fun q hq => by
    rw [← hc', ← hent q hq]; rfl
  have hdirty' : ∀ q ∈ l, (c'.entries q).dirty = (c.entries q).dirty := fun q hq => by
    rw [← hc', ← hent q hq]; rfl
  have href' : ∀ q ∈ l, (c'.entries q).refCount = (c.entries q).refCount := fun q hq => by
    rw [← hc', ← hent q hq]; rfl
  have hpd : (c'.entries p).data = d := by rw [← hc']; simp [Cache.relink, hnew]
  have hpb : (c'.entries p).blockNum = b := by rw [← hc']; simp [Cache.relink, hnew]
  have hpr : (c'.entries p).refCount = 1 := by rw [← hc']; simp [Cache.relink, hnew]
  have hmem : c'.mem = Function.update c.mem d data := by rw [← hc']; rfl
  have hheap : c'.heap = insert d (insert p c.heap) := by rw [← hc']; rfl
  have hbs : c'.blockSize = c.blockSize := by rw [← hc']; rfl
  have hfits : ∀ b, c'.Fits b ↔ c.Fits b := by rw [← hc']; intro b; rfl
  have hdev : ∀ b, c'.onDevice b = c.onDevice b := by rw [← hc']; intro b; rfl
  have hsize : c'.cacheSize = u32 (c.cacheSize + 1) := by rw [← hc']; rfl
  have hmax : c'.maxCacheEntries = c.maxCacheEntries := by rw [← hc']; rfl
  have hrep : c'.links.Rep (p :: l) := by
    rw [← hc']
    exact h.rep.pushFront fun hm => hp (h.live p hm)
  have hwhole : c'.Whole := by rw [← hc']; exact h.whole
  have hsound : c'.faults = fun _ => false := by rw [← hc']; exact h.sound
  rw [hc']
  refine ⟨hwhole, hsound, hmax ▸ h.small, hrep, ?_, by rw [hmax]; exact hroom, ?_, ?_, ?_, ?_, ?_,
    ?_, ?_, ?_, ?_, ?_, ?_, ?_, ?_⟩
  · rw [hsize, h.size]
    have := h.small
    simp only [u32, List.length_cons]
    omega
  · refine List.forall_mem_cons.mpr ⟨by simp [hheap], fun q hq => ?_⟩
    simp [hheap, h.live q hq]
  · refine List.forall_mem_cons.mpr ⟨by simp [hheap, hpd], fun q hq => ?_⟩
    simp [hheap, hdata' q hq, h.buffer q hq]
  · refine List.forall_mem_cons.mpr ⟨?_, fun q hq => ?_⟩
    · rw [hpd]
      exact List.forall_mem_cons.mpr ⟨hdp, fun r hr e => hdh (e ▸ h.live r hr)⟩
    · rw [hdata' q hq]
      exact List.forall_mem_cons.mpr ⟨fun e => hp (e ▸ h.buffer q hq), fun r hr => h.apart q hq r hr⟩
  · refine List.forall_mem_cons.mpr ⟨?_, fun q hq => ?_⟩
    · refine List.forall_mem_cons.mpr ⟨fun _ => rfl, fun r hr e => ?_⟩
      rw [hpd, hdata' r hr] at e
      exact absurd e.symm (hdq r hr)
    · refine List.forall_mem_cons.mpr ⟨fun e => ?_, fun r hr e => ?_⟩
      · rw [hpd, hdata' q hq] at e
        exact absurd e (hdq q hq)
      · rw [hdata' q hq, hdata' r hr] at e
        exact h.ownBuffer q hq r hr e
  · refine List.forall_mem_cons.mpr ⟨?_, fun q hq => ?_⟩
    · refine List.forall_mem_cons.mpr ⟨fun _ => rfl, fun r hr e => ?_⟩
      rw [hpb, hblock' r hr] at e
      exact absurd e.symm (hne r hr)
    · refine List.forall_mem_cons.mpr ⟨fun e => ?_, fun r hr e => ?_⟩
      · rw [hpb, hblock' q hq] at e
        exact absurd e (hne q hq)
      · rw [hblock' q hq, hblock' r hr] at e
        exact h.ownBlock q hq r hr e
  · refine List.forall_mem_cons.mpr ⟨by rw [hpb, hfits]; exact hb, fun q hq => ?_⟩
    rw [hblock' q hq, hfits]
    exact h.fits q hq
  · intro q hq
    rcases List.mem_append.mp hq with hq | hq
    · obtain ⟨r, hr, hrb, hrd⟩ := h.pinned q hq
      exact ⟨r, by simp [hr], by rw [hblock' r hr, hrb], by rw [hdata' r hr, hrd]⟩
    · obtain rfl : q = ⟨b, d⟩ := by simpa using hq
      exact ⟨p, by simp, hpb, hpd⟩
  · refine List.forall_mem_cons.mpr ⟨?_, fun q hq => ?_⟩
    · rw [hpr, hpb, List.countP_append]
      have : pins.countP (fun q => q.block == b) = 0 :=
        List.countP_eq_zero.mpr fun q hq => by simpa using hnone q hq
      simp [this]
    · rw [href' q hq, hblock' q hq, List.countP_append, h.count q hq]
      have : (⟨b, d⟩ : Pin).block ≠ (c.entries q).blockNum := (hne q hq).symm
      simp [this]
  · refine List.forall_mem_cons.mpr ⟨by rw [hpr]; decide, fun q hq => ?_⟩
    rw [href' q hq]
    exact h.word q hq
  · refine List.forall_mem_cons.mpr ⟨?_, fun q hq => ?_⟩
    · rw [hpd, hpb, hmem, hbs, Function.update_self]
      exact hdata
    · rw [hdata' q hq, hblock' q hq, hmem, hbs, Function.update_of_ne (hdq q hq)]
      exact h.contents q hq
  · refine List.forall_mem_cons.mpr ⟨fun _ _ => ?_, fun q hq => ?_⟩
    · rw [hpb, hbs, hdev]
      exact h.absent b hb hne
    · rw [hdirty' q hq, hblock' q hq, hbs, hdev]
      exact h.clean q hq
  · intro b' hb' hne'
    rw [hbs, hdev]
    rw [hfits] at hb'
    refine h.absent b' hb' fun q hq => ?_
    rw [← hblock' q hq]
    exact hne' q (by simp [hq])
  · intro b' ht
    obtain ⟨q, hq, hqb⟩ := h.held b' ht
    exact ⟨q, by simp [hq], hqb⟩

theorem readBlock_run (hw : c.Whole) (hs : c.faults = fun _ => false) (b d : Nat) :
    ext2ReadBlock b d c = some (.ok (), { c with
      mem := Function.update c.mem d (splice (c.mem d) 0 (c.sectorsPerBlock * c.device.sectorSize)
        (c.onDevice b)) }) := by
  have hf : c.faults 0 = false := by rw [hs]
  have hs' : (fun n => c.faults (n + 1)) = c.faults := by rw [hs]
  have h0 : c.device.sectorSize ≠ 0 := Nat.ne_of_gt hw.1
  simp only [ext2ReadBlock, h0, hf, hs', if_false, Bool.false_eq_true]
  rfl

/-- `kmalloc` always has memory that is not in use. -/
def Supplies (choose : Finset Nat → Option Nat) : Prop := ∀ H, ∃ p, p ∉ H ∧ choose H = some p

theorem newEntry_run (h : CacheInv c pins array touched l) {b : Nat} (hb : c.Fits b)
    (hne : ∀ q ∈ l, (c.entries q).blockNum ≠ b) (hroom : l.length < c.maxCacheEntries)
    {choose : Finset Nat → Option Nat} (hc : Supplies choose) :
    Reaches (newEntry b choose) c fun r c' => ∃ d l', r = some d ∧
      CacheInv c' (pins ++ [⟨b, d⟩]) array touched l' := by
  obtain ⟨p, hp, hcp⟩ := hc c.heap
  obtain ⟨d, hd, hcd⟩ := hc (insert p c.heap)
  have hin : p ∈ insert d (insert p c.heap) := by simp
  have hdata : ∀ j, j < c.blockSize →
      splice (c.mem d) 0 (c.sectorsPerBlock * c.device.sectorSize) (c.onDevice b) j = array b j := by
    intro j hj
    rw [← h.absent b hb hne j hj, sectors_mul h.whole]
    have := splice_in (c.mem d) (o := 0) (n := c.blockSize) (j := j) (c.onDevice b) hj
    rwa [Nat.zero_add] at this
  let c₂ : Cache := { c with heap := insert d (insert p c.heap) }
  let c₃ : Cache := { c₂ with
    entries := Function.update c.entries p { c.entries p with data := d } }
  have h₃ : setEntry p (fun e => { e with data := d }) c₂ = some ((), c₃) := setEntry_run hin _
  have h₄ := readBlock_run (c := c₃) h.whole h.sound b d
  have h₅ : setEntry p (fun e => { e with blockNum := b, dirty := false, refCount := 1 })
      { c₃ with mem := Function.update c₃.mem d (splice (c₃.mem d) 0
        (c₃.sectorsPerBlock * c₃.device.sectorSize) (c₃.onDevice b)) } =
      some ((), c.stocked p d b
        (splice (c.mem d) 0 (c.sectorsPerBlock * c.device.sectorSize) (c.onDevice b))) := by
    rw [setEntry_run (by exact hin)]
    simp only [c₃, c₂, Cache.stocked, Function.update_idem, Function.update_self]
    rfl
  have hhead : ∀ q, c.cacheHead = some q → q ∈ insert d (insert p c.heap) := by
    intro q hq
    have hq' : q ∈ l := List.mem_of_head? (h.rep.head ▸ hq)
    simp [h.live q hq']
  have h₆ := addFront_run (c := c.stocked p d b
    (splice (c.mem d) 0 (c.sectorsPerBlock * c.device.sectorSize) (c.onDevice b))) hin hhead
  rw [links_stocked] at h₆
  refine .step (kmalloc_run hcp hp) (.step (kmalloc_run (c := { c with heap := _ }) hcd hd) ?_)
  refine .step h₃ (.step h₄ (.step h₅ (.step h₆ (.pure ⟨d, p :: l, rfl, ?_⟩))))
  exact h.added hp hd hb hne hroom hdata

/-! ### Pins -/

/-- The cache with another reference count and dirty flag in an entry. -/
def Cache.tagged (c : Cache) (p r : Nat) (d : Bool) : Cache :=
  { c with entries := Function.update c.entries p { c.entries p with refCount := r, dirty := d } }

theorem tagged_entries (c : Cache) (p r : Nat) (d : Bool) {β : Type} (f : CacheEntry → β)
    (hf : f { c.entries p with refCount := r, dirty := d } = f (c.entries p)) (q : Nat) :
    f ((c.tagged p r d).entries q) = f (c.entries q) := by
  by_cases e : q = p
  · subst e; simpa [Cache.tagged] using hf
  · simp [Cache.tagged, e]

theorem links_tagged (c : Cache) (p r : Nat) (d : Bool) : (c.tagged p r d).links = c.links := by
  have hn := tagged_entries c p r d CacheEntry.next rfl
  have hp := tagged_entries c p r d CacheEntry.prev rfl
  simp only [Cache.links, hn, hp]
  rfl

/-- A reference count and a dirty flag change together with the pins. -/
theorem CacheInv.tagged (h : CacheInv c pins array touched l) (hp : p ∈ l) {r : Nat} {d : Bool}
    {pins' : List Pin} {touched' : Nat → Bool}
    (hpin : ∀ q ∈ pins', ∃ p ∈ l, (c.entries p).blockNum = q.block ∧ (c.entries p).data = q.data)
    (hr : r = pins'.countP fun q => q.block == (c.entries p).blockNum) (hword : r < 2 ^ 32)
    (hother : ∀ b, b ≠ (c.entries p).blockNum →
      (pins'.countP fun q => q.block == b) = pins.countP fun q => q.block == b)
    (hd : d = false → touched' (c.entries p).blockNum = false →
      (c.entries p).dirty = false ∧ touched (c.entries p).blockNum = false)
    (ht : ∀ b, b ≠ (c.entries p).blockNum → touched' b = touched b)
    (hheld : ∀ b, touched' b = true → ∃ q ∈ pins', q.block = b) :
    CacheInv (c.tagged p r d) pins' array touched' l := by
  have hdata := tagged_entries c p r d CacheEntry.data rfl
  have hblock := tagged_entries c p r d CacheEntry.blockNum rfl
  have hne : ∀ q ∈ l, q ≠ p → (c.entries q).blockNum ≠ (c.entries p).blockNum :=
    fun q hq hqp e => hqp (h.ownBlock q hq p hp e)
  constructor
  · exact h.whole
  · exact h.sound
  · exact h.small
  · rw [links_tagged]; exact h.rep
  · exact h.size
  · exact h.bound
  · exact h.live
  · intro q hq
    rw [hdata]
    exact h.buffer q hq
  · intro q hq s hs
    rw [hdata]
    exact h.apart q hq s hs
  · intro q hq s hs
    rw [hdata, hdata]
    exact h.ownBuffer q hq s hs
  · intro q hq s hs
    rw [hblock, hblock]
    exact h.ownBlock q hq s hs
  · intro q hq
    rw [hblock]
    exact h.fits q hq
  · intro q hq
    obtain ⟨s, hs, hb, hd'⟩ := hpin q hq
    exact ⟨s, hs, by rw [hblock, hb], by rw [hdata, hd']⟩
  · intro q hq
    rw [hblock]
    by_cases e : q = p
    · subst e
      rw [← hr]
      simp [Cache.tagged]
    · rw [hother _ (hne q hq e), ← h.count q hq]
      simp [Cache.tagged, e]
  · intro q hq
    by_cases e : q = p
    · subst e
      simpa [Cache.tagged] using hword
    · simpa [Cache.tagged, e] using h.word q hq
  · intro q hq
    rw [hdata, hblock]
    exact h.contents q hq
  · intro q hq
    rw [hblock]
    by_cases e : q = p
    · subst e
      intro hdq htq
      have hdq' : d = false := by simpa [Cache.tagged] using hdq
      obtain ⟨h₁, h₂⟩ := hd hdq' htq
      exact h.clean q hq h₁ h₂
    · intro hdq htq
      rw [ht _ (hne q hq e)] at htq
      exact h.clean q hq (by simpa [Cache.tagged, e] using hdq) htq
  · intro b hb hnb
    refine h.absent b hb fun q hq => ?_
    rw [← hblock q]
    exact hnb q hq
  · exact hheld

/-- The search by block number. -/
theorem find_run (h : CacheInv c pins array touched l) (b : Nat) :
    ext2CacheFind b c = some (l.find? fun p => (c.entries p).blockNum == b, c) := by
  have := walk_next_run h.rep h.live (fun e => e.blockNum == b) l []
    (k := c.heap.card) rfl (length_le_card h.rep h.live)
  rw [← h.rep.head] at this
  simp only [ext2CacheFind, bind_run, get_run, Option.bind_some]
  exact this

/-- A block that is cached is pinned once more. -/
theorem getHit_run (h : CacheInv c pins array touched l) (hp : p ∈ l) {b : Nat}
    (hb : (c.entries p).blockNum = b) (hroom : (pins.countP fun q => q.block == b) + 1 < 2 ^ 32) :
    Reaches (do
      setEntry p fun e => { e with refCount := u32 (e.refCount + 1) }
      ext2CacheMoveFront p
      return some (← entry p).data : CacheM (Option Nat)) c fun r c' => ∃ d l', r = some d ∧
        CacheInv c' (pins ++ [⟨b, d⟩]) array touched l' := by
  have hcount := h.count p hp
  rw [hb] at hcount
  have hr : u32 ((c.entries p).refCount + 1) = (pins.countP fun q => q.block == b) + 1 := by
    rw [hcount]
    exact Nat.mod_eq_of_lt hroom
  have h₁ : setEntry p (fun e => { e with refCount := u32 (e.refCount + 1) }) c =
      some ((), c.tagged p (u32 ((c.entries p).refCount + 1)) (c.entries p).dirty) :=
    setEntry_run (h.live p hp) _
  have hinv : CacheInv (c.tagged p (u32 ((c.entries p).refCount + 1)) (c.entries p).dirty)
      (pins ++ [⟨b, (c.entries p).data⟩]) array touched l := by
    refine h.tagged hp ?_ ?_ (hr ▸ hroom) ?_ (fun hd ht => ⟨hd, ht⟩) (fun _ _ => rfl) ?_
    · intro q hq
      rcases List.mem_append.mp hq with hq | hq
      · exact h.pinned q hq
      · obtain rfl : q = ⟨b, (c.entries p).data⟩ := by simpa using hq
        exact ⟨p, hp, hb, rfl⟩
    · rw [hr, hb, List.countP_append]
      simp
    · intro b' hb'
      rw [hb] at hb'
      simp [List.countP_append, Ne.symm hb']
    · intro b' ht
      obtain ⟨q, hq, hqb⟩ := h.held b' ht
      exact ⟨q, by simp [hq], hqb⟩
  have hlt : l.length < 2 ^ 32 := lt_of_le_of_lt h.bound h.small
  obtain ⟨k, l', hk, hperm, hmove⟩ := moveFront_run hinv.rep hinv.live hinv.size hlt hp
  refine .step h₁ (.step hmove (.step (entry_run (h.live p hp)) (.pure ⟨_, l', rfl, ?_⟩)))
  have hdata := tagged_entries c p (u32 ((c.entries p).refCount + 1)) (c.entries p).dirty
    CacheEntry.data rfl p
  have hdata' : (((c.tagged p (u32 ((c.entries p).refCount + 1)) (c.entries p).dirty).relink k
      (c.tagged p (u32 ((c.entries p).refCount + 1)) (c.entries p).dirty).cacheSize).entries p).data =
      (c.entries p).data := hdata
  rw [hdata']
  exact hinv.relink hk hperm

/-- **`ext2_get_block`** returns NULL only when the cache is full of pinned entries, and then does
nothing. -/
theorem getBlock_run (h : CacheInv c pins array touched l) {b : Nat} (hb : c.Fits b)
    {choose : Finset Nat → Option Nat} (hc : Supplies choose)
    (hroom : (pins.countP fun q => q.block == b) + 1 < 2 ^ 32) :
    Reaches (ext2GetBlock b choose) c fun r c' =>
      (r = none ∧ c' = c ∧ c.maxCacheEntries ≤ l.length ∧
        ∀ p ∈ l, ∃ q ∈ pins, q.block = (c.entries p).blockNum) ∨
      (∃ d l', r = some d ∧ CacheInv c' (pins ++ [⟨b, d⟩]) array touched l') := by
  refine .step (find_run h b) ?_
  cases hf : l.find? fun p => (c.entries p).blockNum == b with
  | some p =>
      have hp : p ∈ l := List.mem_of_find?_eq_some hf
      have hpb : (c.entries p).blockNum = b := by simpa using List.find?_some hf
      exact (getHit_run h hp hpb hroom).mono fun r c' hq => .inr hq
  | none =>
      have hne : ∀ p ∈ l, (c.entries p).blockNum ≠ b := fun p hp => by
        simpa using List.find?_eq_none.mp hf p hp
      refine .step (get_run c) ?_
      split
      · next hfull =>
          refine .bind (evict_run h) fun r c₁ hq => ?_
          rcases hq with ⟨rfl, rfl, hall⟩ | ⟨rfl, hmax, -, hsec, l', hinv, hlen, hsub⟩
          · refine .pure (.inl ⟨rfl, rfl, h.size ▸ hfull, fun p hp => ?_⟩)
            have hpos := hall p hp
            rw [h.count p hp] at hpos
            obtain ⟨q, hq, hqb⟩ := List.countP_pos_iff.mp (Nat.pos_of_ne_zero hpos)
            exact ⟨q, hq, by simpa using hqb⟩
          · have hb₁ : c₁.Fits b := by
              simp only [Cache.Fits, hsec]
              exact hb
            have hne₁ : ∀ q ∈ l', (c₁.entries q).blockNum ≠ b := fun q hq => by
              rw [(hsub q hq).2]
              exact hne q (hsub q hq).1
            have hroom₁ : l'.length < c₁.maxCacheEntries := by
              rw [hmax]
              exact lt_of_lt_of_le hlen h.bound
            exact (newEntry_run hinv hb₁ hne₁ hroom₁ hc).mono fun r c' hq => .inr hq
      · next hfree =>
          have hroom₁ : l.length < c.maxCacheEntries := by
            rw [← h.size]
            exact Nat.lt_of_not_le hfree
          exact (newEntry_run h hb hne hroom₁ hc).mono fun r c' hq => .inr hq

/-- A put of a buffer that is changed no more, or is put dirty, or that someone else still holds. -/
theorem putBlock_run (h : CacheInv c pins array touched l) {k : Nat} {q : Pin} (hk : pins[k]? = some q)
    {dirty : Bool} (hdirty : touched q.block = true → (∀ q' ∈ pins.eraseIdx k, q'.block ≠ q.block) →
      dirty = true) :
    Reaches (ext2PutBlock q.data dirty) c fun _ c' =>
      CacheInv c' (pins.eraseIdx k) array
        (if dirty then Function.update touched q.block false else touched) l := by
  obtain ⟨hlt, hget⟩ := List.getElem?_eq_some_iff.mp hk
  have hq : q ∈ pins := List.mem_of_getElem? hk
  obtain ⟨p, hp, hpb, hpd⟩ := h.pinned q hq
  have hperm : pins.Perm (q :: pins.eraseIdx k) := by
    rw [← hget]
    exact (List.getElem_cons_eraseIdx_perm hlt).symm
  have hcountP : ∀ b, (pins.countP fun q' => q'.block == b) =
      (pins.eraseIdx k).countP (fun q' => q'.block == b) + if q.block = b then 1 else 0 := by
    intro b
    rw [hperm.countP_eq, List.countP_cons]
    simp
  have hwalk : walk CacheEntry.next (fun e => e.data == q.data) c.heap.card c.cacheHead c =
      some (some p, c) := by
    have := walk_next_run h.rep h.live (fun e => e.data == q.data) l []
      (k := c.heap.card) rfl (length_le_card h.rep h.live)
    rw [← h.rep.head] at this
    have hfind : (l.find? fun p => (c.entries p).data == q.data) = some p := by
      cases hf : l.find? fun p => (c.entries p).data == q.data with
      | none => exact absurd (by simpa using hpd) (List.find?_eq_none.mp hf p hp)
      | some p' =>
          have hd' : (c.entries p').data = q.data := by simpa using List.find?_some hf
          rw [h.ownBuffer p' (List.mem_of_find?_eq_some hf) p hp (hd'.trans hpd.symm)]
    rw [hfind] at this
    exact this
  refine .step (get_run c) (.step hwalk ?_)
  refine ⟨_, _, setEntry_run (h.live p hp) _, ?_⟩
  have hcount := h.count p hp
  rw [hpb, hcountP q.block, if_pos rfl] at hcount
  have hword := h.word p hp
  have hr : sub32 (c.entries p).refCount 1 =
      (pins.eraseIdx k).countP fun q' => q'.block == (c.entries p).blockNum := by
    rw [hpb]
    simp only [sub32, u32]
    omega
  refine h.tagged hp ?_ hr ?_ ?_ ?_ ?_ ?_
  · exact fun q' hq' => h.pinned q' (List.mem_of_mem_eraseIdx hq')
  · simp only [sub32, u32]
    omega
  · intro b hb
    rw [hpb] at hb
    rw [hcountP b, if_neg (Ne.symm hb)]
    rfl
  · cases dirty with
    | true => simp
    | false => exact fun hd ht => ⟨hd, ht⟩
  · intro b hb
    rw [hpb] at hb
    cases dirty with
    | true => simp [hb]
    | false => rfl
  · intro b hb
    have ht : touched b = true := by
      cases dirty with
      | true =>
          simp only [if_true, Function.update_apply] at hb
          split at hb
          · cases hb
          · exact hb
      | false => exact hb
    obtain ⟨q', hq', hb'⟩ := h.held b ht
    rcases List.mem_cons.mp (hperm.subset hq') with rfl | hm
    · -- the pin that goes is on this block: somebody else has one too, unless it was put dirty
      by_contra hnone
      push Not at hnone
      subst hb'
      have hd := hdirty ht hnone
      subst hd
      simp at hb
    · exact ⟨q', hm, hb'⟩

/-! ### Flushing -/

theorem flushLoop_run : ∀ (ys xs : List Nat) {k : Nat} {c : Cache},
    CacheInv c pins array touched l → l = xs ++ ys → ys.length ≤ k →
    (∀ p ∈ xs, (c.entries p).dirty = false) →
    Reaches (flushLoop k ys.head?) c fun r c' => r = .ok () ∧ Flushed c c' ∧
      CacheInv c' pins array touched l ∧ ∀ p ∈ l, (c'.entries p).dirty = false := by
  intro ys
  induction ys with
  | nil =>
      intro xs k c h he hk hclean
      have : l = xs := by simpa using he
      cases k <;> exact .pure ⟨rfl, .refl c, h, this ▸ hclean⟩
  | cons y ys ih =>
      intro xs k c h he hk hclean
      obtain ⟨k, rfl⟩ : ∃ k', k = k' + 1 := ⟨k - 1, by simp at hk; omega⟩
      have hy : y ∈ l := by simp [he]
      have he' : l = (xs ++ [y]) ++ ys := by simp [he]
      have hk' : ys.length ≤ k := by simpa using hk
      refine .step (entry_run (h.live y hy)) ?_
      split
      · refine .bind (flushEntry_run h hy) fun r c₁ hq => ?_
        obtain ⟨rfl, hF, h₁, hd⟩ := hq
        refine .step (entry_run (h₁.live y hy)) ?_
        have hnext : (c₁.entries y).next = ys.head? := h₁.rep.next he
        rw [hnext]
        refine (ih (xs ++ [y]) h₁ he' hk' ?_).mono fun r c' hq => ⟨hq.1, hF.trans hq.2.1, hq.2.2⟩
        intro p hp
        rcases List.mem_append.mp hp with hp | hp
        · exact hF.dirty p (hclean p hp)
        · obtain rfl : p = y := by simpa using hp
          exact hd
      · next hd =>
          refine .step (entry_run (h.live y hy)) ?_
          have hnext : (c.entries y).next = ys.head? := h.rep.next he
          rw [hnext]
          refine ih (xs ++ [y]) h he' hk' ?_
          intro p hp
          rcases List.mem_append.mp hp with hp | hp
          · exact hclean p hp
          · obtain rfl : p = y := by simpa using hp
            simpa using hd

/-- **`ext2_flush_cache`** brings the array to the device, but for the blocks being changed. -/
theorem flushCache_run (h : CacheInv c pins array touched l) :
    Reaches ext2FlushCache c fun r c' => r = .ok () ∧ CacheInv c' pins array touched l ∧
      Flushed c c' ∧ ∀ b, c.Fits b → touched b = false →
        ∀ j, j < c.blockSize → c'.onDevice b j = array b j := by
  have hhead : c.cacheHead = l.head? := h.rep.head
  refine .step (get_run c) ?_
  rw [hhead]
  refine (flushLoop_run l [] h rfl (length_le_card h.rep h.live) (by simp)).mono fun r c' hq => ?_
  obtain ⟨hr, hF, h', hclean⟩ := hq
  refine ⟨hr, h', hF, fun b hb ht j hj => ?_⟩
  have hb' : c'.Fits b := by
    simp only [Cache.Fits, hF.sectors]
    exact hb
  rw [← hF.blockSize] at hj
  by_cases hc : ∃ p ∈ l, (c'.entries p).blockNum = b
  · obtain ⟨p, hp, rfl⟩ := hc
    exact h'.clean p hp (hclean p hp) ht j hj
  · push Not at hc
    exact h'.absent b hb' hc j hj

/-! ### Changing a buffer -/

theorem CacheInv.fill (h : CacheInv c pins array touched l) {q : Pin} (hq : q ∈ pins) (data : Bytes) :
    CacheInv (c.fill q.data data) pins (Function.update array q.block data)
      (Function.update touched q.block true) l := by
  obtain ⟨p, hp, hpb, hpd⟩ := h.pinned q hq
  have hother : ∀ r ∈ l, r ≠ p → (c.entries r).blockNum ≠ q.block ∧ (c.entries r).data ≠ q.data :=
    fun r hr hne => ⟨fun e => hne (h.ownBlock r hr p hp (e.trans hpb.symm)),
      fun e => hne (h.ownBuffer r hr p hp (e.trans hpd.symm))⟩
  refine { h with contents := ?_, clean := ?_, absent := ?_, held := ?_ }
  · intro r hr j hj
    by_cases e : r = p
    · subst e
      have := splice_in (c.mem q.data) (o := 0) (n := c.blockSize) (j := j) data hj
      rw [Nat.zero_add] at this
      simpa [Cache.fill, hpb, hpd] using this
    · obtain ⟨hb, hd⟩ := hother r hr e
      simpa [Cache.fill, hb, hd] using h.contents r hr j hj
  · intro r hr hd ht
    by_cases e : r = p
    · subst e
      rw [show ((c.fill q.data data).entries r).blockNum = q.block from hpb, Function.update_self] at ht
      cases ht
    · have hb : ((c.fill q.data data).entries r).blockNum ≠ q.block := (hother r hr e).1
      rw [Function.update_of_ne hb] at ht ⊢
      exact h.clean r hr hd ht
  · intro b hb hne
    have hbq : b ≠ q.block := fun e => hne p hp (hpb.trans e.symm)
    rw [Function.update_of_ne hbq]
    exact h.absent b hb hne
  · intro b ht
    by_cases e : b = q.block
    · exact ⟨q, hq, e.symm⟩
    · rw [Function.update_of_ne e] at ht
      exact h.held b ht

end Cache

/-! ### Runs -/

/-- The cache of a file system that has just been mounted on a device that does not fail. -/
def CacheSys.fresh (device : Device) (blockSize : Nat) (entries : Nat → CacheEntry)
    (mem : Nat → Bytes) (heap : Finset Nat) : CacheSys where
  cache :=
    { device := device, blockSize := blockSize, cacheHead := none, cacheTail := none, cacheSize := 0,
      maxCacheEntries := 64, entries := entries, mem := mem, heap := heap, faults := fun _ => false }
  pins := []
  array := device.block blockSize
  touched _ := false

/-- **The protocol.**  A buffer is changed and put while it is pinned, and the last put of a buffer
that has been changed since it was put dirty is dirty.  Besides, a block that is asked for has a
device address of its own, and its reference count does not wrap. -/
def Orderly (s : CacheSys) : CacheOp → Prop
  | .get b _ => s.cache.Fits b ∧ (s.pins.countP fun q => q.block == b) + 1 < 2 ^ 32
  | .modify k _ => k < s.pins.length
  | .put k dirty => k < s.pins.length ∧ ∀ q ∈ s.pins[k]?, s.touched q.block = true →
      (∀ q' ∈ s.pins.eraseIdx k, q'.block ≠ q.block) → dirty = true
  | .flush => True

instance (s : CacheSys) : ∀ o, Decidable (Orderly s o)
  | .get b _ => inferInstanceAs (Decidable (b * s.cache.sectorsPerBlock < 2 ^ 32 ∧ _ < _))
  | .modify k _ => inferInstanceAs (Decidable (k < _))
  | .put k dirty => inferInstanceAs (Decidable (k < s.pins.length ∧ ∀ q ∈ s.pins[k]?,
      s.touched q.block = true → (∀ q' ∈ s.pins.eraseIdx k, q'.block ≠ q.block) → dirty = true))
  | .flush => isTrue trivial

/-- Memory does not run out. -/
def CacheOp.Supplied : CacheOp → Prop
  | .get _ choose => Supplies choose
  | _ => True

def Tidy (s : CacheSys) (o : CacheOp) : Prop := Orderly s o ∧ o.Supplied

/-- The list is well formed, each block is in it at most once, and what is pinned is in it. -/
def WellFormed (s : CacheSys) : Prop :=
  ∃ l, s.cache.links.Rep l ∧ s.cache.cacheSize = l.length ∧ l.length ≤ s.cache.maxCacheEntries ∧
    (∀ p ∈ l, ∀ q ∈ l, (s.cache.entries p).blockNum = (s.cache.entries q).blockNum → p = q) ∧
    ∀ q ∈ s.pins, ∃ p ∈ l, (s.cache.entries p).blockNum = q.block ∧ (s.cache.entries p).data = q.data

/-- Every pinned buffer has the contents of the plain array. -/
def Mirrors (s : CacheSys) : Prop :=
  ∀ q ∈ s.pins, ∀ j, j < s.cache.blockSize → s.cache.mem q.data j = s.array q.block j

/-- Every entry of a full cache is pinned. -/
def AllPinned (s : CacheSys) : Prop :=
  ∃ l, s.cache.links.Rep l ∧ s.cache.maxCacheEntries ≤ l.length ∧
    ∀ p ∈ l, ∃ q ∈ s.pins, q.block = (s.cache.entries p).blockNum

/-- What a step shows of the cache. -/
structure Transparent (s : CacheSys) (o : CacheOp) (s' : CacheSys) : Prop where
  wellFormed : WellFormed s'
  mirrors : Mirrors s'
  /-- The block is handed out, or there is no room for it. -/
  got : ∀ b choose, o = .get b choose →
    (∃ d, s'.pins = s.pins ++ [⟨b, d⟩]) ∨ (s'.pins = s.pins ∧ AllPinned s)
  /-- A flush leaves the array on the device, but for the changes that have not been put dirty. -/
  flushed : o = .flush → ∀ b, s'.cache.Fits b → s'.touched b = false →
    ∀ j, j < s'.cache.blockSize → s'.cache.onDevice b j = s'.array b j

def CacheSys.Inv (s : CacheSys) : Prop := ∃ l, CacheInv s.cache s.pins s.array s.touched l

theorem CacheSys.Inv.wellFormed {s : CacheSys} (h : s.Inv) : WellFormed s := by
  obtain ⟨l, h⟩ := h
  exact ⟨l, h.rep, h.size, h.bound, h.ownBlock, h.pinned⟩

theorem CacheSys.Inv.mirrors {s : CacheSys} (h : s.Inv) : Mirrors s := by
  obtain ⟨l, h⟩ := h
  intro q hq j hj
  obtain ⟨p, hp, hb, hd⟩ := h.pinned q hq
  rw [← hb, ← hd]
  exact h.contents p hp j hj

theorem cacheStep_transparent {s : CacheSys} {o : CacheOp} (hI : s.Inv) (hC : Tidy s o) :
    ∃ s', cacheStep s o = some s' ∧ s'.Inv ∧ Transparent s o s' := by
  obtain ⟨l, h⟩ := hI
  cases o with
  | get b choose =>
      obtain ⟨⟨hb, hroom⟩, hc⟩ := hC
      obtain ⟨r, c', hrun, hq⟩ := getBlock_run h hb hc hroom
      rcases hq with ⟨rfl, rfl, hfull, hall⟩ | ⟨d, l', rfl, h'⟩
      · have hI : s.Inv := ⟨l, h⟩
        refine ⟨s, by simp [cacheStep, hrun], hI, hI.wellFormed, hI.mirrors, ?_, by simp⟩
        intro b' choose' _
        exact .inr ⟨rfl, l, h.rep, hfull, hall⟩
      · have hI : CacheSys.Inv { s with cache := c', pins := s.pins ++ [⟨b, d⟩] } := ⟨l', h'⟩
        refine ⟨_, by simp [cacheStep, hrun], hI, hI.wellFormed, hI.mirrors, ?_, by simp⟩
        rintro b' choose' ⟨⟩
        exact .inl ⟨d, rfl⟩
  | modify k data =>
      obtain ⟨hC, -⟩ := hC
      have hk : s.pins[k]? = some (s.pins.get ⟨k, hC⟩) := by simp
      have h' := h.fill (List.mem_of_getElem? hk) data
      have hI : CacheSys.Inv { s with
        cache := s.cache.fill (s.pins.get ⟨k, hC⟩).data data
        array := Function.update s.array (s.pins.get ⟨k, hC⟩).block data
        touched := Function.update s.touched (s.pins.get ⟨k, hC⟩).block true } := ⟨l, h'⟩
      exact ⟨_, by simp only [cacheStep, hk]; rfl, hI, hI.wellFormed, hI.mirrors, by simp, by simp⟩
  | put k dirty =>
      obtain ⟨⟨hlt, hdirty⟩, -⟩ := hC
      have hk : s.pins[k]? = some (s.pins.get ⟨k, hlt⟩) := by simp
      obtain ⟨u, c', hrun, h'⟩ := putBlock_run h hk (hdirty _ hk)
      have hI : CacheSys.Inv { s with
        cache := c'
        pins := s.pins.eraseIdx k
        touched := if dirty then Function.update s.touched (s.pins.get ⟨k, hlt⟩).block false
          else s.touched } := ⟨l, h'⟩
      refine ⟨_, ?_, hI, hI.wellFormed, hI.mirrors, by simp, by simp⟩
      simp only [cacheStep, hk, Option.bind_eq_bind, Option.bind_some, hrun]
      rfl
  | flush =>
      obtain ⟨r, c', hrun, rfl, h', hF, hdev⟩ := flushCache_run h
      have hI : CacheSys.Inv { s with cache := c' } := ⟨l, h'⟩
      refine ⟨_, by simp [cacheStep, hrun], hI, hI.wellFormed, hI.mirrors, by simp, ?_⟩
      intro _ b hb ht j hj
      rw [hF.blockSize] at hj
      simp only [Cache.Fits, hF.sectors] at hb
      exact hdev b hb ht j hj

theorem CacheSys.fresh_inv {device : Device} {blockSize : Nat} (entries : Nat → CacheEntry)
    (mem : Nat → Bytes) (heap : Finset Nat) (hs : 0 < device.sectorSize)
    (hd : device.sectorSize ∣ blockSize) :
    (CacheSys.fresh device blockSize entries mem heap).Inv :=
  ⟨[],
    { whole := ⟨hs, hd⟩
      sound := rfl
      small := (by decide : 64 < 2 ^ 32)
      rep := ⟨rfl, rfl, List.nodup_nil, by simp, by simp⟩
      size := rfl
      bound := Nat.zero_le _
      live := by simp
      buffer := by simp
      apart := by simp
      ownBuffer := by simp
      ownBlock := by simp
      fits := by simp
      pinned := by simp [fresh]
      count := by simp
      word := by simp
      contents := by simp
      clean := by simp
      absent := fun _ _ _ _ _ => rfl
      held := by simp [fresh] }⟩

/-- **The cache is transparent.**  On a device whose sectors divide a block, every run that keeps
to the protocol comes to its end; all along it every pinned buffer has the contents of the plain
array, the list is well formed, nothing that is pinned has been evicted, a block is refused only
when the whole cache is pinned, and a flush leaves the array on the device. -/
theorem cache_transparent (device : Device) (blockSize : Nat) (entries : Nat → CacheEntry)
    (mem : Nat → Bytes) (heap : Finset Nat) (hs : 0 < device.sectorSize)
    (hd : device.sectorSize ∣ blockSize) (os : List CacheOp)
    (h : Meets cacheStep Tidy (.fresh device blockSize entries mem heap) os) :
    (∃ s', run cacheStep (.fresh device blockSize entries mem heap) os = some s') ∧
      Along cacheStep Transparent (.fresh device blockSize entries mem heap) os := by
  have hinit := CacheSys.fresh_inv entries mem heap hs hd
  refine ⟨run_defined (fun s o hI hC => ?_) hinit h, along_of_inv (fun s o s' hI hC hstep => ?_) hinit h⟩
  · obtain ⟨s', hstep, hI', -⟩ := cacheStep_transparent hI hC
    exact ⟨s', hstep, hI'⟩
  · obtain ⟨s'', hstep', hI', hT⟩ := cacheStep_transparent hI hC
    rw [hstep] at hstep'
    cases hstep'
    exact ⟨hI', hT⟩

/-- The allocator that goes on above everything in use. -/
def bump (H : Finset Nat) : Option Nat := some (H.sup id + 1)

theorem supplies_bump : Supplies bump := by
  refine fun H => ⟨_, fun hm => ?_, rfl⟩
  have : H.sup id + 1 ≤ H.sup id := Finset.le_sup (f := id) hm
  omega

/-- Sectors of two bytes and blocks of two sectors. -/
def smallDevice : Device := ⟨fun _ => 0, 2, 2 ^ 34⟩

def smallCache : CacheSys := .fresh smallDevice 4 (fun _ => ⟨0, 0, false, 0, none, none⟩) (fun _ _ => 0) ∅

/-- A block is pinned twice, changed, given back, flushed and read again. -/
def tidyRun : List CacheOp :=
  [.get 5 bump, .get 5 bump, .modify 0 (fun _ => 7), .put 0 false, .put 0 true, .get 9 bump, .flush,
    .get 5 bump]

theorem cache_transparent_tidyRun :
    (∃ s', run cacheStep smallCache tidyRun = some s') ∧ Along cacheStep Transparent smallCache tidyRun := by
  have hmeets : Meets cacheStep Orderly smallCache tidyRun := by decide +kernel
  have hsupply : ∀ o ∈ tidyRun, o.Supplied := by
    simp [tidyRun, CacheOp.Supplied, supplies_bump]
  exact cache_transparent smallDevice 4 _ _ _ (by decide) (by decide) tidyRun
    (hmeets.and (meets_of_forall hsupply))

/-- The run of a client that changes block 0 and gives it back. -/
def changeRun : List CacheOp := [.get 0 bump, .modify 0 (fun _ => 7), .put 0 true, .flush]

/-- Block 2^31 of two sectors has the address of block 0: what was written to the one is read from
the other. -/
theorem address_wraps :
    ¬ Along cacheStep Transparent smallCache (changeRun ++ [.get (2 ^ 31) bump]) := by
  intro h
  have hrun : ((run cacheStep smallCache changeRun).bind fun s₁ =>
      (cacheStep s₁ (.get (2 ^ 31) bump)).map fun s =>
        (s.cache.blockSize, s.pins.map fun q => (s.cache.mem q.data 0, s.array q.block 0))) =
      some (4, [(7, 0)]) := by decide +kernel
  obtain ⟨s₁, h₁, hrun⟩ := Option.bind_eq_some_iff.mp hrun
  obtain ⟨s, hs, hq⟩ := Option.map_eq_some_iff.mp hrun
  simp only [Prod.mk.injEq] at hq
  have hmirror := (along_last h h₁ hs).mirrors
  obtain ⟨q, hq', hval⟩ : ∃ q ∈ s.pins, (s.cache.mem q.data 0, s.array q.block 0) = ((7 : UInt8), (0 : UInt8)) := by
    have : ((7 : UInt8), (0 : UInt8)) ∈ s.pins.map fun q => (s.cache.mem q.data 0, s.array q.block 0) := by
      rw [hq.2]; simp
    exact List.mem_map.mp this
  simp only [Prod.mk.injEq] at hval
  have := hmirror q hq' 0 (by omega)
  rw [hval.1, hval.2] at this
  exact absurd this (by decide)

end Blackmount.Ext2
