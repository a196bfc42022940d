import Blackmount.Mem.Tables

/-!
# Mem — a new address space

What `vmm_create_address_space` does to memory: it takes two pages, one for the structure and one for the
PML4, whose lower half is empty and whose upper half is the kernel's.
-/

namespace Blackmount.Mem
open Blackmount.Lib

/-- A byte of a page. -/
def InPage (n a : Nat) : Prop := n * pageSize ≤ a ∧ a < n * pageSize + pageSize

theorem InPage.eq {n n' a : Nat} (h : InPage n a) (h' : InPage n' a) : n = n' := by
  simp only [InPage, pageSize] at h h'
  omega

/-- The copy writes to the upper half of the new PML4 only. -/
theorem copyUpper_out {kernelPml4 pml4 a : Nat} {mem : Bytes} (h : a < pml4 + 2048 ∨ pml4 + 4096 ≤ a) :
    copyUpper kernelPml4 pml4 mem a = mem a :=
  splice_out _ _ (by omega)

/-- The memory after `vmm_create_address_space`, when both its pages could be had. -/
def newSpaceMem (kernel : AddressSpace) (frame pml4 : UInt64) (s : Pmm) : Bytes :=
  copyUpper kernel.pml4 pml4.toNat
    (splice (wr64 (wr64 s.mem frame.toNat pml4.toNat) (frame.toNat + 8) (pml4 + s.hhdmOffset).toNat) pml4.toNat pageSize
      fun _ => 0)

section Create

variable {memmap : List MemmapEntry} {kernel : AddressSpace} {s : Pmm}

/-! ### The calls it makes -/

/-- No page at all: the structure would be at physical address 0, but then there is no page for the PML4. -/
theorem create_empty (hfirst : pmmAlloc s = some (0, s)) : vmmCreateAddressSpace kernel s = some (none, s) := by
  rw [vmmCreateAddressSpace, bind_run, show allocFrame s = some (0, s) from hfirst, Option.bind_some]
  simp only [bind_run, get_run, Option.bind_some]
  split
  · rfl
  · rw [bind_run, show allocFrame s = some (0, s) from hfirst]
    rfl

variable {frame : UInt64} {s₁ : Pmm}

/-- The structure would be at a null pointer. -/
theorem create_null (hfirst : pmmAlloc s = some (frame, s₁)) (hnull : frame + s₁.hhdmOffset = 0) :
    vmmCreateAddressSpace kernel s = some (none, s₁) := by
  rw [vmmCreateAddressSpace, bind_run, show allocFrame s = some (frame, s₁) from hfirst, Option.bind_some]
  simp only [bind_run, get_run, Option.bind_some]
  rw [if_pos hnull]
  rfl

/-- No page for the PML4. -/
theorem create_short {s₂ : Pmm} (hfirst : pmmAlloc s = some (frame, s₁)) (hnull : frame + s₁.hhdmOffset ≠ 0)
    (hsecond : pmmAlloc s₁ = some (0, s₁)) (hback : pmmFree frame s₁ = some s₂) :
    vmmCreateAddressSpace kernel s = some (none, s₂) := by
  rw [vmmCreateAddressSpace, bind_run, show allocFrame s = some (frame, s₁) from hfirst, Option.bind_some]
  simp only [bind_run, get_run, Option.bind_some]
  rw [if_neg hnull, bind_run, show allocFrame s₁ = some (0, s₁) from hsecond, Option.bind_some]
  simp only
  rw [if_pos trivial, bind_run, show freeFrame frame s₁ = some ((), s₂) by rw [freeFrame, hback]; rfl]
  rfl

theorem create_done {pml4 : UInt64} {s₂ : Pmm} (hfirst : pmmAlloc s = some (frame, s₁))
    (hnull : frame + s₁.hhdmOffset ≠ 0) (hsecond : pmmAlloc s₁ = some (pml4, s₂)) (hpml4 : pml4 ≠ 0) :
    vmmCreateAddressSpace kernel s =
      some (some ⟨frame.toNat, pml4.toNat⟩, { s₂ with mem := newSpaceMem kernel frame pml4 s₂ }) := by
  rw [vmmCreateAddressSpace, bind_run, show allocFrame s = some (frame, s₁) from hfirst, Option.bind_some]
  simp only [bind_run, get_run, Option.bind_some]
  rw [if_neg hnull, bind_run, show allocFrame s₁ = some (pml4, s₂) from hsecond, Option.bind_some]
  simp only
  rw [if_neg hpml4]
  rfl

/-! ### What it leaves -/

variable (memmap kernel s) in
/-- A space was made, with the page of its structure and that of its PML4. -/
structure Created (f n : Nat) (s' : Pmm) : Prop where
  sound : s'.Sound memmap
  same : Pmm.Same s s'
  pages : f ∈ s.freePages ∧ n ∈ s.freePages ∧ f ≠ n
  free : s'.freePages = (s.freePages.erase f).erase n
  kept : ∀ a, s.OffBitmap a → ¬ InPage f a → ¬ InPage n a → s'.mem a = s.mem a
  lower : ∀ i, i < 256 → view s'.mem n i = 0
  upper : ∀ k, kernel.pml4 = k * pageSize → k ∉ s.freePages → s.Outside k →
    ∀ i, 256 ≤ i → view s'.mem n i = view s.mem k i

/-- The entries of the PML4 that was made. -/
theorem view_newSpaceMem {f n : Nat} (hframe : frame.toNat = f * pageSize) {pml4 : UInt64}
    (hpml4 : pml4.toNat = n * pageSize) :
    (∀ i, i < 256 → view (newSpaceMem kernel frame pml4 s) n i = 0) ∧
      ∀ k, kernel.pml4 = k * pageSize → k ≠ f → k ≠ n → ∀ i, 256 ≤ i →
        view (newSpaceMem kernel frame pml4 s) n i = view s.mem k i := by
  constructor
  · intro i hi
    rw [view, if_pos (by omega)]
    have hz : ∀ a, n * pageSize + 8 * i ≤ a → a < n * pageSize + 8 * i + 8 →
        newSpaceMem kernel frame pml4 s a = (fun _ => 0 : Bytes) a := by
      intro a h₁ h₂
      rw [newSpaceMem, hpml4, copyUpper_out (.inl (by omega))]
      have := splice_in (wr64 (wr64 s.mem frame.toNat (n * pageSize)) (frame.toNat + 8) (pml4 + s.hhdmOffset).toNat)
        (o := n * pageSize) (n := pageSize) (j := a - n * pageSize) (fun _ => 0)
        (by simp only [pageSize] at h₂ ⊢; omega)
      rwa [show n * pageSize + (a - n * pageSize) = a by omega] at this
    exact rd64_congr hz
  · intro k hk hkf hkn i hi
    simp only [view]
    split
    · next hlt =>
        -- the bytes copied come from the kernel's page, which no write before the copy touched
        refine rd64_moved fun j hj => ?_
        rw [newSpaceMem, hpml4, hk, hframe, copyUpper]
        generalize hbefore : splice (wr64 (wr64 s.mem (f * pageSize) (n * pageSize)) (f * pageSize + 8)
          (pml4 + s.hhdmOffset).toNat) (n * pageSize) pageSize (fun _ => 0) = before
        have := splice_in before (o := n * pageSize + 8 * 256) (n := 8 * 256) (j := 8 * i + j - 8 * 256)
          (fun j => before (k * pageSize + 8 * 256 + j)) (by omega)
        rw [show n * pageSize + 8 * 256 + (8 * i + j - 8 * 256) = n * pageSize + 8 * i + j by omega,
          show k * pageSize + 8 * 256 + (8 * i + j - 8 * 256) = k * pageSize + 8 * i + j by omega] at this
        rw [this, ← hbefore]
        simp only [pageSize]
        rw [splice_out _ _ (by omega), wr64_out _ _ (by omega), wr64_out _ _ (by omega)]
    · rfl

theorem pageAddr_ne {p : Nat} (hp0 : p ≠ 0) (haddr : (pageAddr p).toNat = p * pageSize) : pageAddr p ≠ 0 := by
  intro e
  rw [e] at haddr
  simp only [pageSize, UInt64.toNat_zero] at haddr
  omega

/-- **`vmm_create_address_space`** makes a space, or has given back what it took; unless the structure would be at
a null pointer, which it takes for no memory. -/
theorem vmmCreateAddressSpace_spec (hmap : GoodMap memmap) (hs : s.Sound memmap) (hb : s.bitmap ≠ 0) :
    (∃ s', vmmCreateAddressSpace kernel s = some (none, s') ∧ s'.Sound memmap ∧ Pmm.Same s s' ∧
        (s'.freePages = s.freePages ∨ ∃ f ∈ s.freePages, pageAddr f + s.hhdmOffset = 0 ∧ s'.freePages = s.freePages.erase f) ∧
        ∀ a, s.OffBitmap a → (∀ f ∈ s.freePages, ¬ InPage f a) → s'.mem a = s.mem a) ∨
      ∃ f n s', vmmCreateAddressSpace kernel s = some (some ⟨f * pageSize, n * pageSize⟩, s') ∧
        Created memmap kernel s f n s' := by
  rcases hs.alloc hmap hb with ⟨hr, -⟩ | ⟨f, s₁, hr, hf, hf0, haddr, hsound₁, hsame₁, hset₁, -, hmem₁⟩
  · exact .inl ⟨s, create_empty hr, hs, .refl s, .inl rfl, fun _ _ _ => rfl⟩
  by_cases hnull : pageAddr f + s₁.hhdmOffset = 0
  · refine .inl ⟨s₁, create_null hr hnull, hsound₁, hsame₁, .inr ⟨f, hf, ?_, hset₁⟩, fun a hoff ha => hmem₁ a (ha f hf) hoff⟩
    rw [← hsame₁.hhdmOffset]
    exact hnull
  have hb₁ : s₁.bitmap ≠ 0 := by
    rw [hsame₁.bitmap]
    exact hb
  have hlt := ((Pmm.mem_freePages hb).mp hf).1
  have h52 := hs.sized.total
  have hfgood := hs.free f hf
  rcases hsound₁.alloc hmap hb₁ with ⟨hr₂, -⟩ | ⟨n, s₂, hr₂, hn, hn0, haddr₂, hsound₂, hsame₂, hset₂, -, hmem₂⟩
  · obtain ⟨s₂, hback, hsound₂, hsame₂, hset₂, hmem₂⟩ := hsound₁.release hb₁ (k := 0) hf0 (by omega)
      (fun _ => ⟨hfgood.1, hsame₁.outside.mpr hfgood.2⟩) (by decide)
    rw [Nat.add_zero] at hback
    refine .inl ⟨s₂, create_short hr hnull hr₂ hback, hsound₂, hsame₁.trans hsame₂, .inl ?_, fun a hoff ha => ?_⟩
    · rw [hset₂, hsame₁.totalPages, if_pos hlt, hset₁, Finset.insert_erase hf]
    · rw [hmem₂ a, hmem₁ a (ha f hf) hoff]
      simp only [Pmm.OffBitmap, hsame₁.bitmapPhys, hsame₁.bitmapSize]
      exact hoff
  right
  have hn' : n ∈ s.freePages.erase f := hset₁ ▸ hn
  have hfn : f ≠ n := fun e => (Finset.mem_erase.mp hn').1 e.symm
  have hsame := hsame₁.trans hsame₂
  have hout : ∀ {p}, s.Outside p → s₂.Outside p := hsame.outside.mpr
  obtain ⟨hlower, hupper⟩ := view_newSpaceMem (s := s₂) haddr haddr₂
  have hwrites : ∀ a, ¬ InPage f a → ¬ InPage n a → newSpaceMem kernel (pageAddr f) (pageAddr n) s₂ a = s₂.mem a := by
    intro a hfa hna
    simp only [InPage, pageSize] at hfa hna
    rw [newSpaceMem, haddr, haddr₂, copyUpper_out (by simp only [pageSize]; omega),
      splice_out _ _ (by simp only [pageSize]; omega), wr64_out _ _ (by simp only [pageSize]; omega),
      wr64_out _ _ (by simp only [pageSize]; omega)]
  obtain ⟨hsound, hfree⟩ := hsound₂.write (m := newSpaceMem kernel (pageAddr f) (pageAddr n) s₂) fun a ha =>
    hwrites a (fun h => ha ((hout hfgood.2).off h)) fun h => ha ((hsame₂.outside.mpr (hsound₁.free n hn).2).off h)
  have hkept : ∀ a, s.OffBitmap a → ¬ InPage f a → ¬ InPage n a → s₂.mem a = s.mem a := by
    intro a hoff hfa hna
    rw [hmem₂ a hna, hmem₁ a hfa hoff]
    simp only [Pmm.OffBitmap, hsame₁.bitmapPhys, hsame₁.bitmapSize]
    exact hoff
  refine ⟨f, n, _, ?_, hsound, hsame.trans ⟨rfl, rfl, rfl, rfl⟩, ⟨hf, Finset.mem_of_mem_erase hn', hfn⟩,
    by rw [hfree, hset₂, hset₁], fun a hoff hfa hna => (hwrites a hfa hna).trans (hkept a hoff hfa hna), hlower,
    fun k hk hknot hkout i hi => ?_⟩
  · rw [create_done hr hnull hr₂ (pageAddr_ne hn0 haddr₂), haddr, haddr₂]
  · have hkf : k ≠ f := fun e => hknot (e ▸ hf)
    have hkn : k ≠ n := fun e => hknot (e ▸ Finset.mem_of_mem_erase hn')
    rw [hupper k hk hkf hkn i hi]
    exact view_congr (fun a ha => hkept a (hkout.off ha) (fun h => hkf (InPage.eq ha h)) fun h => hkn (InPage.eq ha h)) i

end Create

end Blackmount.Mem
