import Blackmount.Mem.Pmm
import Mathlib.Order.Interval.Finset.Nat
import Mathlib.Data.List.Nodup

/-!
# Mem — the page allocator over whole runs

* `Pmm.Sound`: the counter is the number of set bits, and every clear bit is a page of a usable entry
  that no part of the bitmap lies in.  The passes of `pmm_init` establish it, the operations keep it.
* `pmm_sound`: along every run, each allocation returns the lowest run of free pages, or `NULL` when
  there is none; what it returns is usable memory that nobody holds.
-/

namespace Blackmount.Mem
open Blackmount.Lib

/-! ### The memory map -/

/-- The page lies in a usable entry. -/
def UsablePage (memmap : List MemmapEntry) (page : Nat) : Prop :=
  ∃ e ∈ memmap, e.type = .usable ∧ e.base.toNat ≤ page * pageSize ∧
    page * pageSize + pageSize ≤ e.base.toNat + e.length.toNat

/-- No byte is in both. -/
def MemmapEntry.Apart (e f : MemmapEntry) : Prop :=
  ∀ a, ¬ ((e.base.toNat ≤ a ∧ a < e.base.toNat + e.length.toNat) ∧
    f.base.toNat ≤ a ∧ a < f.base.toNat + f.length.toNat)

/-- The usable entries are page-aligned, apart from all other entries, and not at page 0. -/
structure GoodMap (memmap : List MemmapEntry) : Prop where
  aligned : ∀ e ∈ memmap, e.type = .usable →
    e.base.toNat % pageSize = 0 ∧ e.length.toNat % pageSize = 0
  apart : memmap.Pairwise fun e f => e.type = .usable ∨ f.type = .usable → e.Apart f
  nonzero : ¬ UsablePage memmap 0

/-! ### Statics that no operation changes -/

variable {p page n a : Nat} {s pmm : Pmm}

namespace Pmm

structure Same (s s' : Pmm) : Prop where
  bitmap : s'.bitmap = s.bitmap
  hhdmOffset : s'.hhdmOffset = s.hhdmOffset
  bitmapSize : s'.bitmapSize = s.bitmapSize
  totalPages : s'.totalPages = s.totalPages

namespace Same

variable {s s' s'' : Pmm}

theorem refl (s : Pmm) : Same s s := ⟨rfl, rfl, rfl, rfl⟩

theorem trans (h : Same s s') (h' : Same s' s'') : Same s s'' :=
  ⟨h'.bitmap.trans h.bitmap, h'.hhdmOffset.trans h.hhdmOffset, h'.bitmapSize.trans h.bitmapSize,
    h'.totalPages.trans h.totalPages⟩

theorem bitmapPhys (h : Same s s') : s'.bitmapPhys = s.bitmapPhys := by
  simp only [Pmm.bitmapPhys, h.bitmap, h.hhdmOffset]

theorem take (s : Pmm) (page : Nat) : Same s (s.take page) := ⟨rfl, rfl, rfl, rfl⟩

theorem release (s : Pmm) (page : Nat) : Same s (s.release page) := ⟨rfl, rfl, rfl, rfl⟩

theorem clear (s : Pmm) (a n : Nat) : Same s (s.clear a n) := ⟨rfl, rfl, rfl, rfl⟩

end Same

/-! ### The bits -/

@[simp] theorem bits_take (s : Pmm) (page : Nat) : (s.take page).bits = setBit s.bits page := by
  funext i
  have hb : (s.take page).bits i =
      Function.update s.mem (s.bitmapPhys + page / 8) (setBit s.bits page (page / 8)) (s.bitmapPhys + i) := rfl
  rw [hb]
  by_cases hi : i = page / 8
  · rw [hi, Function.update_self]
  · rw [Function.update_of_ne (by omega), setBit, Function.update_of_ne hi, bits]

@[simp] theorem bits_release (s : Pmm) (page : Nat) : (s.release page).bits = clearBit s.bits page := by
  funext i
  have hb : (s.release page).bits i =
      Function.update s.mem (s.bitmapPhys + page / 8) (clearBit s.bits page (page / 8)) (s.bitmapPhys + i) :=
    rfl
  rw [hb]
  by_cases hi : i = page / 8
  · rw [hi, Function.update_self]
  · rw [Function.update_of_ne (by omega), clearBit, Function.update_of_ne hi, bits]

/-- The free pages. -/
def freePages (s : Pmm) : Finset Nat := clearBits s.bits s.totalPages

theorem freePages_take (s : Pmm) (page : Nat) : (s.take page).freePages = s.freePages.erase page := by
  rw [freePages, bits_take]
  exact clearBits_setBit _ _ _

theorem freePages_release (h : page < s.totalPages) :
    (s.release page).freePages = insert page s.freePages := by
  rw [freePages, bits_release]
  exact clearBits_clearBit _ h

/-- No byte of the bitmap lies in the page. -/
def Outside (s : Pmm) (page : Nat) : Prop :=
  page * pageSize + pageSize ≤ s.bitmapPhys ∨ s.bitmapPhys + s.bitmapSize ≤ page * pageSize

theorem Same.outside {s s' : Pmm} (h : Same s s') : s'.Outside page ↔ s.Outside page := by
  simp only [Outside, h.bitmapPhys, h.bitmapSize]

/-- The bitmap has a bit for each page. -/
structure Sized (s : Pmm) : Prop where
  total : s.totalPages < 2 ^ 52
  size : s.totalPages ≤ 8 * s.bitmapSize

theorem Same.sized {s s' : Pmm} (h : Same s s') (hs : s.Sized) : s'.Sized :=
  ⟨by rw [h.totalPages]; exact hs.total, by rw [h.totalPages, h.bitmapSize]; exact hs.size⟩

/-- Clearing pages that are outside leaves the bits alone. -/
theorem testBit_clear {a n i : Nat} (hs : s.Sized) (hi : i < s.totalPages)
    (hout : a + n ≤ s.bitmapPhys ∨ s.bitmapPhys + s.bitmapSize ≤ a) :
    testBit (s.clear a n).bits i = testBit s.bits i := by
  have hsize := hs.size
  have hbyte : (s.clear a n).bits (i / 8) = splice s.mem a n (fun _ => 0) (s.bitmapPhys + i / 8) := rfl
  refine testBit_congr ?_
  rw [hbyte, splice_out _ _ (by omega), bits]

theorem freePages_clear (hs : s.Sized)
    (hout : a + n ≤ s.bitmapPhys ∨ s.bitmapPhys + s.bitmapSize ≤ a) :
    (s.clear a n).freePages = s.freePages :=
  clearBits_congr fun _ hi => testBit_clear hs hi hout

/-! ### The counter -/

/-- `used_pages` and the free pages make up all pages. -/
def Counted (s : Pmm) : Prop := s.usedPages.toNat + s.freePages.card = s.totalPages

theorem Counted.take (h : s.Counted) (hs : s.Sized) (hp : page ∈ s.freePages) :
    (s.take page).Counted := by
  have htotal := hs.total
  have hpos : 0 < s.freePages.card := Finset.card_pos.mpr ⟨page, hp⟩
  have hcard := Finset.card_erase_of_mem hp
  have hadd : (s.usedPages + 1).toNat = s.usedPages.toNat + 1 := by
    have : s.usedPages.toNat < 2 ^ 52 := by simp only [Counted] at h; omega
    rw [UInt64.toNat_add]
    exact Nat.mod_eq_of_lt (by simp; omega)
  simp only [Counted] at h ⊢
  rw [freePages_take, hcard, show (s.take page).usedPages = s.usedPages + 1 from rfl, hadd,
    (Same.take s page).totalPages]
  omega

theorem Counted.release (h : s.Counted) (hp : page < s.totalPages)
    (hused : page ∉ s.freePages) : (s.release page).Counted := by
  have hlt : (insert page s.freePages).card ≤ s.totalPages := by
    have hsub : insert page s.freePages ⊆ Finset.range s.totalPages := by
      intro i hi
      rcases Finset.mem_insert.mp hi with rfl | hi
      · exact Finset.mem_range.mpr hp
      · exact Finset.mem_range.mpr (mem_clearBits.mp hi).1
    simpa using Finset.card_le_card hsub
  have hcard := Finset.card_insert_of_notMem hused
  simp only [Counted] at h ⊢
  have hsub : (s.usedPages - 1).toNat = s.usedPages.toNat - 1 := by
    rw [UInt64.toNat_sub_of_le]
    · rfl
    · rw [UInt64.le_iff_toNat_le]
      simp
      omega
  rw [freePages_release hp, hcard, show (s.release page).usedPages = s.usedPages - 1 from rfl, hsub,
    (Same.release s page).totalPages]
  omega

theorem Counted.used (h : s.Counted) :
    s.usedPages.toNat = (setBits s.bits s.totalPages).card := by
  have := card_setBits_add_clearBits s.bits s.totalPages
  simp only [Counted, freePages] at h
  omega

/-- The counter is right, and what is free is a usable page outside the bitmap. -/
structure Sound (memmap : List MemmapEntry) (s : Pmm) : Prop where
  sized : s.Sized
  counted : s.Counted
  free : ∀ p ∈ s.freePages, UsablePage memmap p ∧ s.Outside p

/-! ### `pmm_init` -/

section Init

variable {s : Pmm}

theorem same_foldl {f : Pmm → Nat → Pmm} (hf : ∀ s p, Same s (f s p)) (l : List Nat) (s : Pmm) :
    Same s (l.foldl f s) := by
  induction l generalizing s with
  | nil => exact .refl s
  | cons p l ih => exact (hf s p).trans (ih (f s p))

theorem same_releaseUsable (s : Pmm) (page : Nat) : Same s (s.releaseUsable page) := by
  simp only [releaseUsable]
  split
  · exact .release s page
  · exact .refl s

theorem same_takeFree (s : Pmm) (page : Nat) : Same s (s.takeFree page) := by
  simp only [takeFree]
  split
  · exact .take s page
  · exact .refl s

/-- The pass over the usable pages frees them, and counts each once. -/
theorem releaseUsable_foldl {l : List Nat} (hc : s.Counted) (hnodup : l.Nodup)
    (hfresh : ∀ p ∈ l, p ∉ s.freePages) :
    (l.foldl releaseUsable s).Counted ∧
      ∀ p ∈ (l.foldl releaseUsable s).freePages, p ∈ s.freePages ∨ p ∈ l := by
  induction l generalizing s with
  | nil => exact ⟨hc, fun p hp => .inl hp⟩
  | cons q l ih =>
      rw [List.nodup_cons] at hnodup
      simp only [List.foldl_cons, releaseUsable]
      split
      · next hq =>
          have hc' := hc.release hq (hfresh q (by simp))
          have hfree := freePages_release hq
          obtain ⟨hcount, hsub⟩ := ih hc' hnodup.2 fun p hp => by
            rw [hfree, Finset.mem_insert]
            rintro (rfl | hmem)
            · exact hnodup.1 hp
            · exact hfresh p (by simp [hp]) hmem
          refine ⟨hcount, fun p hp => ?_⟩
          rcases hsub p hp with hp | hp
          · rw [hfree, Finset.mem_insert] at hp
            rcases hp with rfl | hp
            · simp
            · exact .inl hp
          · simp [hp]
      · obtain ⟨hcount, hsub⟩ := ih hc hnodup.2 fun p hp => hfresh p (by simp [hp])
        refine ⟨hcount, fun p hp => ?_⟩
        rcases hsub p hp with hp | hp
        · exact .inl hp
        · simp [hp]

theorem takeFree_spec (page : Nat) (hc : s.Counted) (hs : s.Sized) :
    (s.takeFree page).Counted ∧ (s.takeFree page).freePages = s.freePages.erase page := by
  simp only [takeFree]
  split
  · next h =>
      exact ⟨hc.take hs (mem_clearBits.mpr h), freePages_take s page⟩
  · next h =>
      refine ⟨hc, (Finset.erase_eq_of_notMem fun hmem => h ?_).symm⟩
      exact mem_clearBits.mp hmem

/-- A pass that takes pages back. -/
theorem takeFree_foldl {l : List Nat} (hc : s.Counted) (hs : s.Sized) :
    (l.foldl takeFree s).Counted ∧
      ∀ p ∈ (l.foldl takeFree s).freePages, p ∈ s.freePages ∧ p ∉ l := by
  induction l generalizing s with
  | nil => exact ⟨hc, fun p hp => ⟨hp, by simp⟩⟩
  | cons q l ih =>
      obtain ⟨hc', hfree⟩ := takeFree_spec q hc hs
      obtain ⟨hcount, hsub⟩ := ih hc' ((same_takeFree s q).sized hs)
      refine ⟨hcount, fun p hp => ?_⟩
      obtain ⟨hmem, hl⟩ := hsub p hp
      rw [hfree, Finset.mem_erase] at hmem
      exact ⟨hmem.2, by simp [hmem.1, hl]⟩

end Init

end Pmm

section Map

variable {memmap : List MemmapEntry}

theorem usablePages_inside {e : MemmapEntry} (hp : p ∈ usablePages e) (hal : e.base.toNat % pageSize = 0) :
    e.type = .usable ∧ e.base.toNat ≤ p * pageSize ∧
      p * pageSize + pageSize ≤ e.base.toNat + e.length.toNat := by
  simp only [usablePages] at hp
  split at hp
  · next ht =>
      obtain ⟨j, hj, rfl⟩ := List.mem_map.mp hp
      have hj := List.mem_range.mp hj
      simp only [pageSize] at *
      exact ⟨ht, by omega, by omega⟩
  · simp at hp

theorem GoodMap.usable (h : GoodMap memmap) (hp : p ∈ memmap.flatMap usablePages) :
    UsablePage memmap p := by
  obtain ⟨e, he, hp⟩ := List.mem_flatMap.mp hp
  have ht : e.type = .usable := by
    by_contra hne
    simp [usablePages, hne] at hp
  exact ⟨e, he, usablePages_inside hp (h.aligned e he ht).1⟩

/-- No page is freed twice by the pass over the usable entries. -/
theorem GoodMap.nodup (h : GoodMap memmap) : (memmap.flatMap usablePages).Nodup := by
  rw [List.nodup_flatMap]
  constructor
  · intro e _
    simp only [usablePages]
    split
    · exact List.nodup_range.map fun a b hab => by simpa using hab
    · exact List.nodup_nil
  · refine h.apart.imp_of_mem fun {e f} he hf hapart => ?_
    intro p hpe hpf
    have hte : e.type = .usable := by
      by_contra hne
      simp [usablePages, hne] at hpe
    have htf : f.type = .usable := by
      by_contra hne
      simp [usablePages, hne] at hpf
    obtain ⟨-, h₁, h₂⟩ := usablePages_inside hpe (h.aligned e he hte).1
    obtain ⟨-, h₃, h₄⟩ := usablePages_inside hpf (h.aligned f hf htf).1
    exact hapart (.inl hte) (p * pageSize) ⟨⟨h₁, by simp only [pageSize] at *; omega⟩, h₃,
      by simp only [pageSize] at *; omega⟩

end Map

variable {b hhdmOffset r : UInt64}

theorem Pmm.Sized.place (h : s.Sized) : (s.place b).Sized := ⟨h.total, h.size⟩

/-- After the `memset` all pages are used. -/
theorem Pmm.place_spec (hs : s.Sized) :
    (s.place b).Counted ∧ (s.place b).freePages = ∅ := by
  have hbit : ∀ i, i < s.totalPages → testBit (s.place b).bits i = true := by
    intro i hi
    have hsize := hs.size
    have hbyte : (s.place b).bits (i / 8) = 0xFF := by
      have hin : i / 8 < s.bitmapSize := by omega
      exact splice_in s.mem (fun _ => 0xFF) hin
    have hall : ∀ k : Fin 8, (0xFF : UInt8).toBitVec.getLsbD k.val = true := by decide
    rw [testBit_eq, hbyte]
    exact hall ⟨i % 8, Nat.mod_lt _ (by decide)⟩
  have hfree : (s.place b).freePages = ∅ := by
    ext i
    simp only [freePages, mem_clearBits, Finset.notMem_empty, iff_false, not_and]
    intro hi
    rw [hbit i hi]
    decide
  refine ⟨?_, hfree⟩
  have htotal := hs.total
  rw [Counted, hfree]
  have hused : (s.place b).usedPages.toNat = s.totalPages := by
    simp only [place, UInt64.toNat_ofNat']
    exact Nat.mod_eq_of_lt (by omega)
  rw [hused]
  rfl

theorem Pmm.same_passes (memmap : List MemmapEntry) (s : Pmm) : Same s (s.passes memmap) :=
  (same_foldl same_releaseUsable _ s).trans
    ((same_foldl same_takeFree _ _).trans (same_foldl same_takeFree _ _))

variable {memmap : List MemmapEntry}

/-- The three passes. -/
theorem Pmm.passes_sound (hmap : GoodMap memmap) (hs : s.Sized)
    (hc : s.Counted) (hempty : s.freePages = ∅) (hal : s.bitmapPhys % pageSize = 0) :
    (s.passes memmap).Sound memmap := by
  simp only [passes]
  obtain ⟨hc₁, hfree₁⟩ := releaseUsable_foldl hc hmap.nodup fun p _ => by simp [hempty]
  have e₁ := same_foldl same_releaseUsable (memmap.flatMap usablePages) s
  generalize (memmap.flatMap usablePages).foldl Pmm.releaseUsable s = s₁ at hc₁ hfree₁ e₁ ⊢
  obtain ⟨hc₂, hfree₂⟩ := takeFree_foldl (l := s₁.bitmapPages) hc₁ (e₁.sized hs)
  have e₂ := same_foldl same_takeFree s₁.bitmapPages s₁
  generalize s₁.bitmapPages.foldl takeFree s₁ = s₂ at hc₂ hfree₂ e₂ ⊢
  obtain ⟨hc₃, hfree₃⟩ := takeFree_foldl (l := memmap.flatMap bootPages) hc₂ (e₂.sized (e₁.sized hs))
  have e₃ := same_foldl same_takeFree (memmap.flatMap bootPages) s₂
  have hsame := e₁.trans (e₂.trans e₃)
  refine ⟨hsame.sized hs, hc₃, fun p hp => ?_⟩
  obtain ⟨hp₂, -⟩ := hfree₃ p hp
  obtain ⟨hp₁, hout⟩ := hfree₂ p hp₂
  rcases hfree₁ p hp₁ with hp₀ | hp₀
  · simp [hempty] at hp₀
  · refine ⟨hmap.usable hp₀, hsame.outside.mpr ?_⟩
    have hpages : ∀ i, i < (s.bitmapSize + pageSize - 1) / pageSize → p ≠ s.bitmapPhys / pageSize + i := by
      rintro i hi rfl
      refine hout (List.mem_map.mpr ⟨i, ?_, by rw [e₁.bitmapPhys]⟩)
      rw [e₁.bitmapSize]
      exact List.mem_range.mpr hi
    have hbelow := hpages (p - s.bitmapPhys / pageSize)
    simp only [Outside, pageSize] at *
    omega

/-- **`pmm_init` leaves a sound allocator**, when it finds a place for the bitmap. -/
theorem pmmInit_sound {mem : Bytes}
    (hmap : GoodMap memmap) (h : (pmmInit memmap hhdmOffset mem).bitmap ≠ 0) :
    (pmmInit memmap hhdmOffset mem).Sound memmap := by
  have hsized : ∀ highest : UInt64, Pmm.Sized ⟨mem, hhdmOffset, 0, (highest.toNat / pageSize + 7) / 8,
      highest.toNat / pageSize, 0, highest⟩ := by
    intro highest
    have := highest.toNat_lt
    exact ⟨by simp only [pageSize]; omega, by simp only; omega⟩
  simp only [pmmInit] at h ⊢
  split
  · next hnone =>
      rw [hnone] at h
      exact absurd rfl h
  · next e hsome =>
      rw [hsome] at h
      simp only at h ⊢
      split
      · next hz =>
          rw [if_pos hz] at h
          exact absurd rfl h
      · obtain ⟨he, hfit⟩ : e ∈ memmap ∧ e.type = .usable := by
          refine ⟨List.mem_of_find?_eq_some hsome, ?_⟩
          have := List.find?_some hsome
          simp only [decide_eq_true_eq] at this
          exact this.1
        have hs := hsized (findHighest memmap)
        obtain ⟨hc, hempty⟩ := Pmm.place_spec (b := e.base + hhdmOffset) hs
        refine Pmm.passes_sound hmap hs.place hc hempty ?_
        have hphys : (e.base + hhdmOffset - hhdmOffset).toNat = e.base.toNat := by
          rw [UInt64.add_sub_cancel]
        exact (congrArg (· % pageSize) hphys).trans (hmap.aligned e he hfit).1

/-! ### The operations -/

namespace Pmm

/-- The page may be handed out. -/
def isFree (s : Pmm) (page : Nat) : Bool := s.bitmap != 0 && !s.bitmapTest page

theorem isFree_eq (hb : s.bitmap ≠ 0) : s.isFree = fun i => !s.bitmapTest i := by
  funext i
  simp [isFree, hb]

theorem mem_freePages (hb : s.bitmap ≠ 0) :
    p ∈ s.freePages ↔ p < s.totalPages ∧ s.isFree p = true := by
  simp [freePages, mem_clearBits, isFree_eq hb, bitmapTest]

/-- What an allocation of `n` pages returns and leaves behind. -/
def Allocates (s : Pmm) (n : Nat) (r : UInt64) (s' : Pmm) : Prop :=
  (r = 0 ∧ s' = s ∧ ∀ p, ¬ FreeRun s.isFree n s.totalPages p) ∨
    ∃ p, r = pageAddr p ∧ FreeRun s.isFree n s.totalPages p ∧
      (∀ q, FreeRun s.isFree n s.totalPages q → p ≤ q) ∧
      s' = (s.takeRun p n).clear (p * pageSize) (n * pageSize)

theorem freeRun_one (hb : s.bitmap ≠ 0) :
    FreeRun s.isFree 1 s.totalPages p ↔ p ∈ s.freePages := by
  rw [mem_freePages hb]
  constructor
  · rintro ⟨-, hle, hfree⟩
    exact ⟨by omega, hfree 0 (by omega)⟩
  · rintro ⟨hlt, hfree⟩
    refine ⟨by omega, by omega, fun j hj => ?_⟩
    rw [show p + j = p by omega]
    exact hfree

theorem pmmAlloc_spec (hb : s.bitmap ≠ 0) :
    ∃ r s', pmmAlloc s = some (r, s') ∧ s.Allocates 1 r s' := by
  simp only [pmmAlloc, hb, false_and, if_false]
  cases hfirst : firstClear s.bits s.totalPages with
  | none =>
      refine ⟨0, s, rfl, .inl ⟨rfl, rfl, fun p hp => ?_⟩⟩
      have hempty : s.freePages = ∅ := firstClear_none hfirst
      rw [freeRun_one hb, hempty] at hp
      simp at hp
  | some i =>
      refine ⟨_, _, rfl, .inr ⟨i, rfl, (freeRun_one hb).mpr (firstClear_some hfirst), fun q hq => ?_, ?_⟩⟩
      · exact firstClear_lowest hfirst ((freeRun_one hb).mp hq)
      · simp [takeRun]

theorem pmmAllocPages_spec (hb : s.bitmap ≠ 0) (count : UInt64) :
    ∃ r s', pmmAllocPages count s = some (r, s') ∧ s.Allocates count.toNat r s' := by
  simp only [pmmAllocPages, hb, false_and, if_false]
  split
  · next h0 => exact ⟨0, s, rfl, .inl ⟨rfl, rfl, fun p hp => by simp [FreeRun, h0] at hp⟩⟩
  split
  · next h1 =>
      obtain ⟨r, s', hr, hspec⟩ := pmmAlloc_spec hb
      exact ⟨r, s', hr, by rw [h1]; exact hspec⟩
  · rw [← isFree_eq hb]
    cases hfind : findRun s.isFree count.toNat s.totalPages 0 0 0 with
    | none => exact ⟨0, s, rfl, .inl ⟨rfl, rfl, findRun_eq_none hfind⟩⟩
    | some p =>
        obtain ⟨hrun, hlow⟩ := findRun_eq_some hfind
        exact ⟨_, _, rfl, .inr ⟨p, rfl, hrun, hlow, rfl⟩⟩

theorem takeRun_succ (s : Pmm) (p n : Nat) : s.takeRun p (n + 1) = (s.takeRun p n).take (p + n) := by
  simp [takeRun, List.range_succ, List.foldl_append]

/-- Taking free pages one after the other. -/
theorem takeRun_spec (hc : s.Counted) (hs : s.Sized)
    (hfree : ∀ j, j < n → p + j ∈ s.freePages) :
    (s.takeRun p n).Counted ∧ Same s (s.takeRun p n) ∧
      (s.takeRun p n).freePages = s.freePages \ Finset.Ico p (p + n) := by
  induction n with
  | zero => exact ⟨hc, .refl s, by simp [takeRun]⟩
  | succ n ih =>
      obtain ⟨hc', hsame, hset⟩ := ih fun j hj => hfree j (by omega)
      have hmem : p + n ∈ (s.takeRun p n).freePages := by
        rw [hset, Finset.mem_sdiff, Finset.mem_Ico]
        exact ⟨hfree n (by omega), by omega⟩
      rw [takeRun_succ]
      refine ⟨hc'.take (hsame.sized hs) hmem, hsame.trans (.take _ _), ?_⟩
      rw [freePages_take, hset]
      ext i
      simp only [Finset.mem_erase, Finset.mem_sdiff, Finset.mem_Ico]
      constructor
      · rintro ⟨hne, hi, hout⟩
        exact ⟨hi, by omega⟩
      · rintro ⟨hi, hout⟩
        exact ⟨by omega, hi, by omega⟩

/-- Pages in a row that are all outside the bitmap: the bitmap is not between two of them. -/
theorem outside_run (hsize : 0 < s.bitmapSize)
    (hout : ∀ j, j < n + 1 → s.Outside (p + j)) :
    p * pageSize + (n + 1) * pageSize ≤ s.bitmapPhys ∨ s.bitmapPhys + s.bitmapSize ≤ p * pageSize := by
  induction n with
  | zero =>
      have h0 := hout 0 (by omega)
      rw [Nat.add_zero] at h0
      rw [Nat.zero_add, Nat.one_mul]
      exact h0
  | succ n ih =>
      have hlast := hout (n + 1) (by omega)
      have hfirst := ih fun j hj => hout j (by omega)
      rw [Outside, Nat.add_mul] at hlast
      rw [Nat.succ_mul (n + 1)]
      omega

variable {memmap : List MemmapEntry} {s s' : Pmm}

theorem Sound.run_free (hb : s.bitmap ≠ 0) (hrun : FreeRun s.isFree n s.totalPages p) {j : Nat}
    (hj : j < n) : p + j ∈ s.freePages := by
  obtain ⟨-, hle, hfree⟩ := hrun
  exact (mem_freePages hb).mpr ⟨by omega, hfree j hj⟩

/-- **An allocation keeps the allocator sound**, and takes the pages it returns. -/
theorem Sound.allocates (h : s.Sound memmap) (hb : s.bitmap ≠ 0)
    (hrun : FreeRun s.isFree n s.totalPages p) :
    ((s.takeRun p n).clear (p * pageSize) (n * pageSize)).Sound memmap ∧
      Same s ((s.takeRun p n).clear (p * pageSize) (n * pageSize)) ∧
      ((s.takeRun p n).clear (p * pageSize) (n * pageSize)).freePages =
        s.freePages \ Finset.Ico p (p + n) := by
  have hmem := fun j (hj : j < n) => Sound.run_free hb hrun hj
  obtain ⟨hc, hsame, hset⟩ := takeRun_spec h.counted h.sized hmem
  obtain ⟨hpos, hle, -⟩ := hrun
  have hsize : 0 < s.bitmapSize := by
    have := h.sized.size
    omega
  obtain ⟨m, rfl⟩ : ∃ m, n = m + 1 := ⟨n - 1, by omega⟩
  have hout := outside_run (p := p) hsize fun j hj => (h.free _ (hmem j hj)).2
  rw [← hsame.bitmapPhys, ← hsame.bitmapSize] at hout
  have hclear := freePages_clear (hsame.sized h.sized) hout
  have hall := hsame.trans (.clear _ (p * pageSize) ((m + 1) * pageSize))
  refine ⟨⟨hall.sized h.sized, ?_, fun q hq => ?_⟩, hall, hclear.trans hset⟩
  · rw [Counted, hclear]
    exact hc
  · rw [hclear, hset, Finset.mem_sdiff] at hq
    obtain ⟨huse, hq⟩ := h.free q hq.1
    exact ⟨huse, hall.outside.mpr hq⟩

/-- **Freeing a usable page outside the bitmap, or one beyond the end, keeps the allocator sound.** -/
theorem Sound.freePage (h : s.Sound memmap) (hb : s.bitmap ≠ 0)
    (hp : p < s.totalPages → UsablePage memmap p ∧ s.Outside p) :
    ∃ s', s.freePage p = some s' ∧ s'.Sound memmap ∧ Same s s' ∧
      s'.freePages ⊆ insert p s.freePages := by
  simp only [Pmm.freePage, hb, if_false]
  split
  · exact ⟨s, rfl, h, .refl s, Finset.subset_insert _ _⟩
  · next hlt =>
      have hlt : p < s.totalPages := by omega
      split
      · next hbit =>
          have hset := freePages_release hlt
          refine ⟨_, rfl, ⟨(Same.release s p).sized h.sized, h.counted.release hlt fun hmem => ?_,
            fun q hq => ?_⟩, .release s p, by rw [hset]⟩
          · have := (mem_clearBits.mp hmem).2
            rw [bitmapTest, this] at hbit
            cases hbit
          · rw [hset, Finset.mem_insert] at hq
            rw [(Same.release s p).outside]
            rcases hq with rfl | hq
            · exact hp hlt
            · exact h.free q hq
      · exact ⟨s, rfl, h, .refl s, Finset.subset_insert _ _⟩

/-- The loop of `pmm_free_pages`. -/
theorem Sound.freeLoop {l : List Nat} (h : s.Sound memmap) (hb : s.bitmap ≠ 0)
    (hl : ∀ p ∈ l, p < s.totalPages → UsablePage memmap p ∧ s.Outside p) :
    ∃ s', l.foldlM Pmm.freePage s = some s' ∧ s'.Sound memmap ∧ Same s s' ∧
      s'.freePages ⊆ s.freePages ∪ l.toFinset := by
  induction l generalizing s with
  | nil => exact ⟨s, rfl, h, .refl s, by simp⟩
  | cons p l ih =>
      obtain ⟨s₁, h₁, hsound, hsame, hsub⟩ := h.freePage hb (hl p (by simp))
      obtain ⟨s₂, h₂, hsound₂, hsame₂, hsub₂⟩ := ih hsound (by rw [hsame.bitmap]; exact hb)
        fun q hq hlt => by
          rw [hsame.totalPages] at hlt
          rw [hsame.outside]
          exact hl q (by simp [hq]) hlt
      refine ⟨s₂, by rw [List.foldlM_cons, h₁]; exact h₂, hsound₂, hsame.trans hsame₂, fun q hq => ?_⟩
      have hq := hsub₂ hq
      rw [Finset.mem_union] at hq
      rcases hq with hq | hq
      · have := hsub hq
        simp only [Finset.mem_insert, Finset.mem_union, List.toFinset_cons] at this ⊢
        tauto
      · simp only [Finset.mem_insert, Finset.mem_union, List.toFinset_cons]
        tauto

/-! ### What the operations leave alone -/

/-- A byte that is not the bitmap's. -/
def OffBitmap (s : Pmm) (a : Nat) : Prop := a < s.bitmapPhys ∨ s.bitmapPhys + s.bitmapSize ≤ a

theorem Outside.off (h : s.Outside p) (ha : p * pageSize ≤ a ∧ a < p * pageSize + pageSize) :
    s.OffBitmap a := by
  simp only [Outside, OffBitmap] at *
  omega

theorem Same.offBitmap (h : Same s s') : s'.OffBitmap a ↔ s.OffBitmap a := by
  simp only [OffBitmap, h.bitmapPhys, h.bitmapSize]

theorem bitmap_byte (h : s.Sized) (hp : page < s.totalPages) (ha : s.OffBitmap a) :
    a ≠ s.bitmapPhys + page / 8 := by
  have := h.size
  simp only [OffBitmap] at ha
  omega

/-- The `memset` of `pmm_init`. -/
theorem place_off (ha : a < (s.place b).bitmapPhys) : (s.place b).mem a = s.mem a := by
  have hphys : a < (b - s.hhdmOffset).toNat := ha
  simp only [place]
  exact splice_out _ _ (.inl hphys)

/-- The passes of `pmm_init` write to the bitmap only. -/
theorem passes_off (h : s.Sized) (ha : s.OffBitmap a) : (s.passes memmap).mem a = s.mem a := by
  have hfold : ∀ {f : Pmm → Nat → Pmm}, (∀ s p, Same s (f s p)) →
      (∀ (s : Pmm) p, s.Sized → s.OffBitmap a → (f s p).mem a = s.mem a) →
      ∀ (l : List Nat) (s : Pmm), s.Sized → s.OffBitmap a → (l.foldl f s).mem a = s.mem a := by
    intro f hsame hone l
    induction l with
    | nil => exact fun _ _ _ => rfl
    | cons p l ih =>
        intro s hs ha
        rw [List.foldl_cons, ih _ ((hsame s p).sized hs) ((hsame s p).offBitmap.mpr ha), hone s p hs ha]
  have hrelease := hfold same_releaseUsable fun s p hs ha => by
    simp only [releaseUsable]
    split
    · next hp => exact Function.update_of_ne (bitmap_byte hs hp ha) _ _
    · rfl
  have htake := hfold same_takeFree fun s p hs ha => by
    simp only [takeFree]
    split
    · next hp => exact Function.update_of_ne (bitmap_byte hs hp.1 ha) _ _
    · rfl
  have e₁ := same_foldl same_releaseUsable (memmap.flatMap usablePages) s
  have e₂ := same_foldl same_takeFree ((memmap.flatMap usablePages).foldl releaseUsable s).bitmapPages
    ((memmap.flatMap usablePages).foldl releaseUsable s)
  simp only [passes]
  rw [htake _ _ ((e₁.trans e₂).sized h) ((e₁.trans e₂).offBitmap.mpr ha), htake _ _ (e₁.sized h) (e₁.offBitmap.mpr ha),
    hrelease _ s h ha]

/-- Writes outside the bitmap. -/
theorem Sound.write (h : s.Sound memmap) {m : Bytes} (hm : ∀ a, ¬ s.OffBitmap a → m a = s.mem a) :
    ({ s with mem := m } : Pmm).Sound memmap ∧ ({ s with mem := m } : Pmm).freePages = s.freePages := by
  have hfree : ({ s with mem := m } : Pmm).freePages = s.freePages := by
    refine clearBits_congr fun i hi => testBit_congr ?_
    have hsize := h.sized.size
    have hi : i < s.totalPages := hi
    have hin : ¬ s.OffBitmap (s.bitmapPhys + i / 8) := by
      simp only [OffBitmap]
      omega
    exact hm _ hin
  refine ⟨⟨⟨h.sized.total, h.sized.size⟩, ?_, fun p hp => ?_⟩, hfree⟩
  · rw [Counted, hfree]
    exact h.counted
  · rw [hfree] at hp
    exact h.free p hp

theorem takeRun_off (h : s.Sized) (hle : p + n ≤ s.totalPages) (ha : s.OffBitmap a) :
    (s.takeRun p n).mem a = s.mem a := by
  induction n with
  | zero => rfl
  | succ n ih =>
      have hsame : Same s (s.takeRun p n) := by
        simp only [takeRun]
        rw [← List.foldl_map]
        exact same_foldl Same.take _ s
      rw [takeRun_succ, ← ih (by omega)]
      refine Function.update_of_ne (bitmap_byte (hsame.sized h) ?_ (hsame.offBitmap.mpr ha)) _ _
      rw [hsame.totalPages]
      omega

/-- **An allocation of several pages** takes pages that were free, and writes to nothing but them and the bitmap. -/
theorem Sound.allocRun (hmap : GoodMap memmap) (h : s.Sound memmap) (hb : s.bitmap ≠ 0)
    (hrun : FreeRun s.isFree n s.totalPages p) :
    p ≠ 0 ∧ (pageAddr p).toNat = p * pageSize ∧
      (∀ a, p * pageSize ≤ a ∧ a < (p + n) * pageSize →
        ((s.takeRun p n).clear (p * pageSize) (n * pageSize)).mem a = 0) ∧
      ∀ a, ¬ (p * pageSize ≤ a ∧ a < (p + n) * pageSize) → s.OffBitmap a →
        ((s.takeRun p n).clear (p * pageSize) (n * pageSize)).mem a = s.mem a := by
  have hfirst := Sound.run_free hb hrun hrun.1
  have hlt := ((mem_freePages hb).mp hfirst).1
  refine ⟨?_, ?_, fun a ha => ?_, fun a ha hoff => ?_⟩
  · rintro rfl
    exact hmap.nonzero (h.free _ hfirst).1
  · simp only [pageAddr, UInt64.toNat_ofNat', pageSize]
    have := h.sized.total
    exact Nat.mod_eq_of_lt (by omega)
  · rw [Nat.add_mul] at ha
    have := splice_in (s.takeRun p n).mem (o := p * pageSize) (n := n * pageSize) (j := a - p * pageSize) (fun _ => 0)
      (by omega)
    rwa [show p * pageSize + (a - p * pageSize) = a by omega] at this
  · rw [Nat.add_mul] at ha
    have hout : splice (s.takeRun p n).mem (p * pageSize) (n * pageSize) (fun _ => 0) a = (s.takeRun p n).mem a :=
      splice_out _ _ (by omega)
    exact hout.trans (takeRun_off h.sized hrun.2.1 hoff)

/-- **One page.**  `pmm_alloc` fails when no page is free; otherwise it takes a page that was free, clears it,
and writes to nothing else but the bitmap. -/
theorem Sound.alloc (hmap : GoodMap memmap) (h : s.Sound memmap) (hb : s.bitmap ≠ 0) :
    (pmmAlloc s = some (0, s) ∧ s.freePages = ∅) ∨
      ∃ p s', pmmAlloc s = some (pageAddr p, s') ∧ p ∈ s.freePages ∧ p ≠ 0 ∧ (pageAddr p).toNat = p * pageSize ∧
        s'.Sound memmap ∧ Same s s' ∧ s'.freePages = s.freePages.erase p ∧
        (∀ a, p * pageSize ≤ a ∧ a < p * pageSize + pageSize → s'.mem a = 0) ∧
        ∀ a, ¬ (p * pageSize ≤ a ∧ a < p * pageSize + pageSize) → s.OffBitmap a → s'.mem a = s.mem a := by
  obtain ⟨r, s', hr, ⟨rfl, rfl, hnone⟩ | ⟨p, rfl, hrun, -, rfl⟩⟩ := pmmAlloc_spec hb
  · refine .inl ⟨hr, Finset.eq_empty_of_forall_notMem fun p hp => hnone p ((freeRun_one hb).mpr hp)⟩
  · right
    obtain ⟨hp0, haddr, hzero, hkept⟩ := h.allocRun hmap hb hrun
    obtain ⟨hsound, hsame, hset⟩ := h.allocates hb hrun
    rw [Nat.succ_mul] at hzero hkept
    refine ⟨p, _, hr, (freeRun_one hb).mp hrun, hp0, haddr, hsound, hsame, ?_, hzero, hkept⟩
    rw [hset, Nat.Ico_succ_singleton, Finset.sdiff_singleton_eq_erase]

/-- **`pmm_free`** of a usable page outside the bitmap, or of one beyond the end, writes to nothing but the
bitmap. -/
theorem Sound.release (h : s.Sound memmap) (hb : s.bitmap ≠ 0) (hp0 : p ≠ 0) (hp52 : p < 2 ^ 52)
    (hp : p < s.totalPages → UsablePage memmap p ∧ s.Outside p) {k : Nat} (hk : k < pageSize) :
    ∃ s', pmmFree (UInt64.ofNat (p * pageSize + k)) s = some s' ∧ s'.Sound memmap ∧ Same s s' ∧
      (s'.freePages = if p < s.totalPages then insert p s.freePages else s.freePages) ∧
      ∀ a, s.OffBitmap a → s'.mem a = s.mem a := by
  have haddr : (UInt64.ofNat (p * pageSize + k)).toNat = p * pageSize + k := by
    rw [UInt64.toNat_ofNat']
    refine Nat.mod_eq_of_lt ?_
    simp only [pageSize] at hk ⊢
    omega
  have hne : UInt64.ofNat (p * pageSize + k) ≠ 0 := by
    intro e
    rw [e] at haddr
    simp only [pageSize, UInt64.toNat_zero] at haddr
    omega
  have hpage : (UInt64.ofNat (p * pageSize + k)).toNat / pageSize = p := by
    rw [haddr]
    simp only [pageSize] at hk ⊢
    omega
  obtain ⟨s', hs', hsound, hsame, -⟩ := h.freePage hb hp
  rw [pmmFree, if_neg hne, hpage]
  refine ⟨s', hs', hsound, hsame, ?_, ?_⟩
  · simp only [Pmm.freePage, hb, if_false] at hs'
    split at hs'
    · next hge =>
        cases hs'
        rw [if_neg (by omega)]
    · next hlt =>
        rw [if_pos (by omega)]
        split at hs'
        · cases hs'
          exact freePages_release (by omega)
        · next hbit =>
            cases hs'
            refine (Finset.insert_eq_of_mem ?_).symm
            exact mem_clearBits.mpr ⟨by omega, by simpa [bitmapTest] using hbit⟩
  · intro a ha
    simp only [Pmm.freePage, hb, if_false] at hs'
    split at hs'
    · cases hs'
      rfl
    · split at hs'
      · cases hs'
        refine Function.update_of_ne ?_ _ _
        have := h.sized.size
        simp only [OffBitmap] at ha
        omega
      · cases hs'
        rfl

end Pmm

/-! ### Runs -/

inductive PmmOp where
  | alloc
  | allocPages (count : UInt64)
  | free (page : UInt64)
  | freePages (page count : UInt64)

/-- The allocator, what the last call returned, the pages that were ever handed out, and those that were
not freed since. -/
structure PmmState where
  pmm : Pmm
  returned : UInt64 := 0
  handed : Finset Nat := ∅
  live : Finset Nat := ∅

namespace PmmState

/-- After an allocation of `n` pages that returned `r`. -/
def hand (s : PmmState) (n : Nat) (r : UInt64) (pmm : Pmm) : PmmState :=
  if r = 0 then { s with pmm := pmm, returned := 0 }
  else
    let pages := Finset.Ico (r.toNat / pageSize) (r.toNat / pageSize + n)
    ⟨pmm, r, s.handed ∪ pages, s.live ∪ pages⟩

/-- After the pages were freed. -/
def drop (s : PmmState) (pages : List Nat) (pmm : Pmm) : PmmState :=
  { s with pmm := pmm, returned := 0, live := s.live \ pages.toFinset }

end PmmState

/-- The page numbers a free function goes through. -/
def PmmOp.freed : PmmOp → List Nat
  | .free page => if page = 0 then [] else [page.toNat / pageSize]
  | .freePages page count => if page = 0 ∨ count = 0 then [] else freedPages page count
  | _ => []

def pmmStep (s : PmmState) : PmmOp → Option PmmState
  | .alloc => (pmmAlloc s.pmm).map fun q => s.hand 1 q.1 q.2
  | .allocPages count => (pmmAllocPages count s.pmm).map fun q => s.hand count.toNat q.1 q.2
  | .free page => (pmmFree page s.pmm).map fun m => s.drop (PmmOp.free page).freed m
  | .freePages page count =>
      (pmmFreePages page count s.pmm).map fun m => s.drop (PmmOp.freePages page count).freed m

/-- Only pages that were handed out are freed, or such as are beyond the end of memory. -/
def Returned (s : PmmState) (o : PmmOp) : Prop :=
  ∀ p ∈ o.freed, p ∈ s.handed ∨ s.pmm.totalPages ≤ p

instance (s : PmmState) (o : PmmOp) : Decidable (Returned s o) := by delta Returned; infer_instance

/-- The set bits below `total_pages`. -/
def Pmm.setPages (s : Pmm) : Finset Nat := if s.bitmap = 0 then ∅ else setBits s.bits s.totalPages

/-- An allocation of `n` pages returns `NULL` when there is no run of `n` free pages, and otherwise the
lowest one; its pages are usable, outside the bitmap, held by nobody, and no longer free. -/
structure AllocatesLowest (memmap : List MemmapEntry) (s : PmmState) (n : Nat) (s' : PmmState) : Prop where
  null : s'.returned = 0 ↔ ∀ p, ¬ FreeRun s.pmm.isFree n s.pmm.totalPages p
  lowest : s'.returned ≠ 0 → ∃ p, s'.returned.toNat = p * pageSize ∧
    FreeRun s.pmm.isFree n s.pmm.totalPages p ∧
    (∀ q, FreeRun s.pmm.isFree n s.pmm.totalPages q → p ≤ q) ∧
    ∀ j, j < n → UsablePage memmap (p + j) ∧ s.pmm.Outside (p + j) ∧ p + j ∉ s.live ∧
      s'.pmm.isFree (p + j) = false ∧ p + j ∈ s'.live

/-- What holds after each call. -/
def PmmCorrect (memmap : List MemmapEntry) (s : PmmState) (o : PmmOp) (s' : PmmState) : Prop :=
  s'.pmm.usedPages.toNat = s'.pmm.setPages.card ∧
    match o with
    | .alloc => AllocatesLowest memmap s 1 s'
    | .allocPages count => AllocatesLowest memmap s count.toNat s'
    | _ => True

/-- The invariant once the bitmap is placed. -/
structure Ready (memmap : List MemmapEntry) (s : PmmState) : Prop where
  placed : s.pmm.bitmap ≠ 0
  sound : s.pmm.Sound memmap
  handed : ∀ p ∈ s.handed, UsablePage memmap p ∧ s.pmm.Outside p
  live : ∀ p ∈ s.live, p ∉ s.pmm.freePages

/-- Without a bitmap nothing ever happens. -/
structure Idle (s : PmmState) : Prop where
  unplaced : s.pmm.bitmap = 0
  used : s.pmm.usedPages = 0

section Steps

variable {memmap : List MemmapEntry} {s s' : PmmState}

theorem Ready.used (h : Ready memmap s) : s.pmm.usedPages.toNat = s.pmm.setPages.card := by
  rw [Pmm.setPages, if_neg h.placed]
  exact h.sound.counted.used

theorem pageAddr_toNat (hp : p < n) (hn : n < 2 ^ 52) : (pageAddr p).toNat = p * pageSize := by
  simp only [pageAddr, UInt64.toNat_ofNat', pageSize]
  exact Nat.mod_eq_of_lt (by omega)

/-- **An allocation is right, and keeps the invariant.** -/
theorem Ready.alloc (hmap : GoodMap memmap) (h : Ready memmap s)
    (ha : s.pmm.Allocates n r pmm) :
    Ready memmap (s.hand n r pmm) ∧ AllocatesLowest memmap s n (s.hand n r pmm) := by
  rcases ha with ⟨rfl, rfl, hnone⟩ | ⟨p, rfl, hrun, hlow, rfl⟩
  · exact ⟨⟨h.placed, h.sound, h.handed, h.live⟩, ⟨fun _ => hnone, fun _ => rfl⟩,
      fun hne => absurd rfl hne⟩
  · obtain ⟨hsound, hsame, hset⟩ := h.sound.allocates h.placed hrun
    have hmem := fun j (hj : j < n) => Pmm.Sound.run_free h.placed hrun hj
    have hgood := fun j (hj : j < n) => h.sound.free _ (hmem j hj)
    have hp : p < s.pmm.totalPages := by
      have := hrun.1
      have := hrun.2.1
      omega
    have haddr := pageAddr_toNat hp h.sound.sized.total
    have hpos : p ≠ 0 := by
      rintro rfl
      exact hmap.nonzero (by simpa using (hgood 0 hrun.1).1)
    have hne : pageAddr p ≠ 0 := by
      intro e
      rw [e] at haddr
      simp only [pageSize, UInt64.toNat_zero] at haddr
      omega
    have hpage : (pageAddr p).toNat / pageSize = p := by
      rw [haddr]
      exact Nat.mul_div_cancel _ (by decide)
    have hhand : s.hand n (pageAddr p) ((s.pmm.takeRun p n).clear (p * pageSize) (n * pageSize)) =
        ⟨(s.pmm.takeRun p n).clear (p * pageSize) (n * pageSize), pageAddr p,
          s.handed ∪ Finset.Ico p (p + n), s.live ∪ Finset.Ico p (p + n)⟩ := by
      rw [PmmState.hand, if_neg hne, hpage]
    rw [hhand]
    have hplaced : ((s.pmm.takeRun p n).clear (p * pageSize) (n * pageSize)).bitmap ≠ 0 := by
      rw [hsame.bitmap]
      exact h.placed
    refine ⟨⟨hplaced, hsound, fun q hq => ?_, fun q hq => ?_⟩,
      ⟨fun e => absurd e hne, fun hnone => absurd hrun (hnone p)⟩,
      fun _ => ⟨p, haddr, hrun, hlow, fun j hj => ⟨(hgood j hj).1, (hgood j hj).2, ?_, ?_, ?_⟩⟩⟩
    · simp only [Finset.mem_union, Finset.mem_Ico] at hq
      rw [hsame.outside]
      rcases hq with hq | hq
      · exact h.handed q hq
      · have := hgood (q - p) (by omega)
        rwa [show p + (q - p) = q by omega] at this
    · simp only [Finset.mem_union] at hq
      rw [hset, Finset.mem_sdiff]
      rcases hq with hq | hq
      · exact fun hfree => h.live q hq hfree.1
      · exact fun hfree => hfree.2 hq
    · exact fun hlive => h.live _ hlive (hmem j hj)
    · have hnot : p + j ∉ ((s.pmm.takeRun p n).clear (p * pageSize) (n * pageSize)).freePages := by
        rw [hset, Finset.mem_sdiff, Finset.mem_Ico]
        exact fun hfree => hfree.2 ⟨by omega, by omega⟩
      rw [Pmm.mem_freePages hplaced, hsame.totalPages] at hnot
      have hlt : p + j < s.pmm.totalPages := by
        have := hrun.2.1
        omega
      simpa [hlt] using hnot
    · simp only [Finset.mem_union, Finset.mem_Ico]
      exact .inr ⟨by omega, by omega⟩

/-- **Freeing handed pages keeps the invariant.** -/
theorem Ready.free (h : Ready memmap s) {l : List Nat}
    (hl : ∀ p ∈ l, p ∈ s.handed ∨ s.pmm.totalPages ≤ p) :
    ∃ pmm, l.foldlM Pmm.freePage s.pmm = some pmm ∧ Ready memmap (s.drop l pmm) := by
  obtain ⟨pmm, hrun, hsound, hsame, hsub⟩ := h.sound.freeLoop (l := l) h.placed fun p hp hlt => by
    rcases hl p hp with hp | hp
    · exact h.handed p hp
    · omega
  refine ⟨pmm, hrun, by rw [PmmState.drop, hsame.bitmap]; exact h.placed, hsound, fun p hp => ?_,
    fun p hp hfree => ?_⟩
  · exact ⟨(h.handed p hp).1, hsame.outside.mpr (h.handed p hp).2⟩
  · simp only [PmmState.drop, Finset.mem_sdiff] at hp
    have hfree : p ∈ s.pmm.freePages ∪ l.toFinset := hsub hfree
    rcases Finset.mem_union.mp hfree with hfree | hfree
    · exact h.live p hp.1 hfree
    · exact hp.2 hfree

theorem pmmFree_eq (page : UInt64) (m : Pmm) :
    pmmFree page m = (PmmOp.free page).freed.foldlM Pmm.freePage m := by
  simp only [pmmFree, PmmOp.freed]
  split
  · rfl
  · simp

theorem pmmFreePages_eq (page count : UInt64) (m : Pmm) :
    pmmFreePages page count m = (PmmOp.freePages page count).freed.foldlM Pmm.freePage m := by
  simp only [pmmFreePages, PmmOp.freed]
  split <;> rfl

/-- **Every call is right once the bitmap is placed.** -/
theorem Ready.step (hmap : GoodMap memmap) (h : Ready memmap s) {o : PmmOp} (ho : Returned s o) :
    ∃ s', pmmStep s o = some s' ∧ Ready memmap s' ∧ PmmCorrect memmap s o s' := by
  cases o with
  | alloc =>
      obtain ⟨r, pmm, hr, hspec⟩ := Pmm.pmmAlloc_spec h.placed
      obtain ⟨hready, hlow⟩ := h.alloc hmap hspec
      exact ⟨_, by rw [pmmStep, hr]; rfl, hready, hready.used, hlow⟩
  | allocPages count =>
      obtain ⟨r, pmm, hr, hspec⟩ := Pmm.pmmAllocPages_spec h.placed count
      obtain ⟨hready, hlow⟩ := h.alloc hmap hspec
      exact ⟨_, by rw [pmmStep, hr]; rfl, hready, hready.used, hlow⟩
  | free page =>
      obtain ⟨pmm, hrun, hready⟩ := h.free ho
      exact ⟨_, by rw [pmmStep, pmmFree_eq, hrun]; rfl, hready, hready.used, trivial⟩
  | freePages page count =>
      obtain ⟨pmm, hrun, hready⟩ := h.free ho
      exact ⟨_, by rw [pmmStep, pmmFreePages_eq, hrun]; rfl, hready, hready.used, trivial⟩

theorem Idle.counted (h : Idle s) : s.pmm.usedPages.toNat = s.pmm.setPages.card := by
  rw [h.used, Pmm.setPages, if_pos h.unplaced]
  rfl

/-- Without a bitmap no page is free. -/
theorem Idle.alloc (h : Idle s) (hr : r = 0) (hp : pmm = s.pmm) :
    Idle (s.hand n r pmm) ∧ AllocatesLowest memmap s n (s.hand n r pmm) := by
  subst hr hp
  refine ⟨⟨h.unplaced, h.used⟩, ⟨fun _ p hrun => ?_, fun _ => rfl⟩, fun hne => absurd rfl hne⟩
  obtain ⟨hpos, -, hfree⟩ := hrun
  have := hfree 0 hpos
  simp [Pmm.isFree, h.unplaced] at this

theorem Idle.pmmAlloc (h : Idle s) (hr : Mem.pmmAlloc s.pmm = some (r, pmm)) :
    r = 0 ∧ pmm = s.pmm := by
  simp only [Mem.pmmAlloc, h.unplaced, true_and] at hr
  split at hr
  · cases hr
  · next htotal =>
      rw [show s.pmm.totalPages = 0 by omega] at hr
      cases hr
      exact ⟨rfl, rfl⟩

theorem Idle.pmmAllocPages (h : Idle s) {count r : UInt64}
    (hr : Mem.pmmAllocPages count s.pmm = some (r, pmm)) : r = 0 ∧ pmm = s.pmm := by
  simp only [Mem.pmmAllocPages, h.unplaced, true_and] at hr
  split at hr
  · cases hr
    exact ⟨rfl, rfl⟩
  split at hr
  · exact h.pmmAlloc hr
  split at hr
  · cases hr
  · next htotal =>
      rw [show s.pmm.totalPages = 0 by omega] at hr
      cases hr
      exact ⟨rfl, rfl⟩

theorem Idle.free (h : Idle s) {l : List Nat} {m : Pmm} (hl : l.foldlM Pmm.freePage s.pmm = some m) :
    Idle (s.drop l m) := by
  have hone : ∀ p m', Pmm.freePage s.pmm p = some m' → m' = s.pmm := by
    intro p m' hp
    simp only [Pmm.freePage, h.unplaced, if_true] at hp
    split at hp
    · cases hp; rfl
    · cases hp
  have hsame : m = s.pmm := by
    induction l with
    | nil => cases hl; rfl
    | cons p l ih =>
        obtain ⟨m₁, h₁, h₂⟩ := Option.bind_eq_some_iff.mp hl
        rw [hone p m₁ h₁] at h₂
        exact ih h₂
  rw [hsame]
  exact ⟨h.unplaced, h.used⟩

/-- Without a bitmap every call that returns leaves all as it was. -/
theorem Idle.step (h : Idle s) {o : PmmOp} (hs : pmmStep s o = some s') :
    Idle s' ∧ PmmCorrect memmap s o s' := by
  cases o with
  | alloc =>
      obtain ⟨⟨r, pmm⟩, hr, rfl⟩ := Option.map_eq_some_iff.mp hs
      obtain ⟨hr, hp⟩ := h.pmmAlloc hr
      obtain ⟨hidle, hok⟩ := h.alloc (n := 1) hr hp
      exact ⟨hidle, hidle.counted, hok⟩
  | allocPages count =>
      obtain ⟨⟨r, pmm⟩, hr, rfl⟩ := Option.map_eq_some_iff.mp hs
      obtain ⟨hr, hp⟩ := h.pmmAllocPages hr
      obtain ⟨hidle, hok⟩ := h.alloc (n := count.toNat) hr hp
      exact ⟨hidle, hidle.counted, hok⟩
  | free page =>
      obtain ⟨m, hm, rfl⟩ := Option.map_eq_some_iff.mp hs
      rw [pmmFree_eq] at hm
      exact ⟨h.free hm, (h.free hm).counted, trivial⟩
  | freePages page count =>
      obtain ⟨m, hm, rfl⟩ := Option.map_eq_some_iff.mp hs
      rw [pmmFreePages_eq] at hm
      exact ⟨h.free hm, (h.free hm).counted, trivial⟩

end Steps

/-- Where the runs start: after `pmm_init`. -/
def pmmBoot (memmap : List MemmapEntry) (hhdmOffset : UInt64) (mem : Bytes) : PmmState :=
  { pmm := pmmInit memmap hhdmOffset mem }

theorem pmmBoot_ready {mem : Bytes}
    (hmap : GoodMap memmap) (h : (pmmInit memmap hhdmOffset mem).bitmap ≠ 0) :
    Ready memmap (pmmBoot memmap hhdmOffset mem) :=
  ⟨h, pmmInit_sound hmap h, by simp [pmmBoot], by simp [pmmBoot]⟩

/-- When `pmm_init` finds no place for the bitmap it returns before it counts anything. -/
theorem pmmBoot_idle {mem : Bytes}
    (h : (pmmInit memmap hhdmOffset mem).bitmap = 0) : Idle (pmmBoot memmap hhdmOffset mem) := by
  refine ⟨h, ?_⟩
  simp only [pmmBoot, pmmInit] at h ⊢
  split
  · rfl
  · next e he =>
      rw [he] at h
      simp only at h ⊢
      split
      · rfl
      · next hne =>
          rw [if_neg hne] at h
          exact absurd ((Pmm.same_passes memmap _).bitmap.symm.trans h) hne

/-- **The page allocator over whole runs.**  From `pmm_init` on, for every good memory map and every run
in which only pages that were handed out are freed (or `NULL`, or beyond the end): after each call the
counter is the number of set bits, and each allocation returns the lowest run of free pages, held by
nobody, or `NULL` when there is none.  Once the bitmap is placed every call returns. -/
theorem pmm_sound {memmap : List MemmapEntry} (hmap : GoodMap memmap) (hhdmOffset : UInt64) (mem : Bytes)
    {os : List PmmOp} (hret : Meets pmmStep Returned (pmmBoot memmap hhdmOffset mem) os) :
    (pmmBoot memmap hhdmOffset mem).pmm.usedPages.toNat = (pmmBoot memmap hhdmOffset mem).pmm.setPages.card ∧
      Along pmmStep (PmmCorrect memmap) (pmmBoot memmap hhdmOffset mem) os ∧
      ((pmmInit memmap hhdmOffset mem).bitmap ≠ 0 →
        (run pmmStep (pmmBoot memmap hhdmOffset mem) os).isSome) := by
  by_cases hb : (pmmInit memmap hhdmOffset mem).bitmap = 0
  · have hidle := pmmBoot_idle hb
    exact ⟨hidle.counted, along_of_inv (fun _ _ _ hI _ hs => hI.step hs) hidle hret,
      fun hne => absurd hb hne⟩
  · have hready := pmmBoot_ready hmap hb
    refine ⟨hready.used, along_of_inv (fun s o s' hI hC hs => ?_) hready hret, fun _ => ?_⟩
    · obtain ⟨s₁, h₁, hr, hok⟩ := hI.step hmap hC
      rw [hs] at h₁
      cases h₁
      exact ⟨hr, hok⟩
    · obtain ⟨s', hs'⟩ := run_defined (fun s o hI hC => by
        obtain ⟨s₁, h₁, hr, -⟩ := Ready.step hmap hI hC
        exact ⟨s₁, h₁, hr⟩) hready hret
      rw [hs']
      rfl

/-- Five usable pages from page 1 on, two of the boot loader's, and one that is reserved. -/
def tinyMap : List MemmapEntry :=
  [⟨4096, 20480, .usable, by decide⟩, ⟨24576, 5000, .bootloaderReclaimable, by decide⟩,
    ⟨32768, 4096, .reserved, by decide⟩]

theorem tinyMap_good : GoodMap tinyMap := by
  refine ⟨by decide, ?_, ?_⟩
  · simp only [tinyMap, List.pairwise_cons, List.mem_cons, List.not_mem_nil, or_false, forall_eq_or_imp,
      forall_eq, MemmapEntry.Apart]
    refine ⟨⟨fun _ a => ?_, fun _ a => ?_⟩, fun _ a => ?_, by simp⟩ <;> simp <;> omega
  · rintro ⟨e, he, ht, hlow, -⟩
    simp only [tinyMap, List.mem_cons, List.not_mem_nil, or_false] at he
    rcases he with rfl | rfl | rfl
    · exact absurd hlow (by decide)
    · cases ht
    · cases ht

/-- Two pages, one page, the two freed, freed again with one beyond the end, and three taken. -/
def tinyRun : List PmmOp :=
  [.allocPages 2, .alloc, .freePages 8192 2, .freePages 8192 1, .free 0, .free 0x9000, .allocPages 3, .allocPages 2]

theorem pmm_sound_tinyRun :
    Meets pmmStep Returned (pmmBoot tinyMap 0x1000000 fun _ => 0) tinyRun ∧
      Along pmmStep (PmmCorrect tinyMap) (pmmBoot tinyMap 0x1000000 fun _ => 0) tinyRun ∧
      ((run pmmStep (pmmBoot tinyMap 0x1000000 fun _ => 0) tinyRun).map fun s =>
        (s.returned, s.pmm.usedPages)) = some (8192, 8) := by
  have hret : Meets pmmStep Returned (pmmBoot tinyMap 0x1000000 fun _ => 0) tinyRun := by decide +kernel
  exact ⟨hret, (pmm_sound tinyMap_good _ _ hret).2.1, by decide +kernel⟩

end Blackmount.Mem
