import Blackmount.Mem.PageCount

/-!
# Mem — the window at `VMM_SCRATCH_VA`

A frame of a process is entered at `VMM_SCRATCH_VA`, written or read there, and taken out again.

* `Spaces.overwrite`: the bytes of a page that is apart do not matter to the tables.
* `Wrote`: pages that are apart keep their bytes, but for those that were stored.
* `Spaces.scratch_maps`: the frame can be entered when the table of the window is there.
* `Spaces.window_write`, `Spaces.window_read`: the three steps.
* `Wrote.byte`: what a process sees of it.
-/

namespace Blackmount.Mem
open Blackmount.Lib

variable {bytes : List UInt8}

section Window

variable {memmap : List MemmapEntry} {kroot : Nat} {roots : Nat → Prop} {s s' s'' : Pmm} {T T' : Nat → Nat → Option Nat}
  {kernel : AddressSpace} {cr3 : Nat}

/-- The bytes of a page that is apart are none of the tables'. -/
theorem Spaces.overwrite (h : Spaces memmap kroot roots s) {p : Nat} (hapart : Apart kroot roots s p) {mem : Bytes}
    (hmem : ∀ a, ¬ InPage p a → mem a = s.mem a) :
    Spaces memmap kroot roots { s with mem := mem } ∧ ({ s with mem := mem } : Pmm).freePages = s.freePages ∧
      (∀ {f}, Apart kroot roots s f → Apart kroot roots { s with mem := mem } f) ∧
      ∀ {r page}, Site kroot roots r page → translate { s with mem := mem } r page = translate s r page := by
  have hoff : ∀ a, ¬ s.OffBitmap a → mem a = s.mem a := fun a ha => hmem a fun hin => ha (hapart.outside.off hin)
  obtain ⟨hsound, hfree⟩ := h.trees.sound.write hoff
  obtain ⟨hspaces, htable, htrans⟩ := h.aside hsound ⟨rfl, rfl, rfl, rfl⟩
    (fun ⟨_, _, _, hr, hd, hm⟩ => by rw [hfree]; exact (h.trees.used hr hd hm).1)
    fun ⟨_, _, _, hr, hd, hm⟩ a ha => hmem a fun hin => hapart.noTable hr hd (InPage.eq ha hin ▸ hm)
  exact ⟨hspaces, hfree, fun hf =>
    ⟨hf.ne_zero, hf.lt, by rw [hfree]; exact hf.used, hf.outside, fun hr hd => by rw [htable hr hd]; exact hf.noTable hr hd⟩,
    htrans⟩

/-! ### Bytes stored in one frame -/

/-- The bytes of `bytes`, from `base` on, over those of `mem`. -/
def stored (mem : Bytes) (base : Nat) (bytes : List UInt8) : Bytes :=
  splice mem base bytes.length fun j => bytes.getD j 0

variable (memmap kroot roots) in
/-- Pages that are apart stay so; their bytes are those before, with `bytes` stored from `base` on. -/
structure Wrote (base : Nat) (bytes : List UInt8) (T : Nat → Nat → Option Nat) (s s' : Pmm) : Prop where
  spaces : Spaces memmap kroot roots s'
  same : Pmm.Same s s'
  free : s'.freePages ⊆ s.freePages
  apart : ∀ {f}, Apart kroot roots s f → Apart kroot roots s' f
  mem : ∀ {f}, Apart kroot roots s f → ∀ {a}, InPage f a → s'.mem a = stored s.mem base bytes a
  trans : ∀ {r page}, Site kroot roots r page → translate s' r page = T r page

theorem stored_congr {mem mem' : Bytes} {base a : Nat} (h : mem a = mem' a) :
    stored mem base bytes a = stored mem' base bytes a := by
  simp only [stored, splice, h]

theorem stored_nil (mem : Bytes) (base : Nat) : stored mem base [] = mem := by
  funext a
  exact splice_out _ _ (by simp only [List.length_nil]; omega)

theorem Wrote.after (hm : Moved memmap kroot roots T s s') {base : Nat}
    (h : Wrote memmap kroot roots base bytes T' s' s'') : Wrote memmap kroot roots base bytes T' s s'' :=
  ⟨h.spaces, hm.same.trans h.same, h.free.trans hm.free, fun hf => h.apart (hm.apart hf),
    fun hf _ ha => (h.mem (hm.apart hf) ha).trans (stored_congr (hm.bytes hf ha)), h.trans⟩

theorem Wrote.before {base : Nat} (h : Wrote memmap kroot roots base bytes T s s')
    (hm : Moved memmap kroot roots T' s' s'') : Wrote memmap kroot roots base bytes T' s s'' :=
  ⟨hm.spaces, h.same.trans hm.same, hm.free.trans h.free, fun hf => hm.apart (h.apart hf),
    fun hf _ ha => (hm.bytes (h.apart hf) ha).trans (h.mem hf ha), hm.trans⟩

theorem Wrote.congr {base : Nat} (h : Wrote memmap kroot roots base bytes T s s')
    (hT : ∀ {r page}, Site kroot roots r page → T r page = T' r page) : Wrote memmap kroot roots base bytes T' s s' :=
  ⟨h.spaces, h.same, h.free, h.apart, h.mem, fun hs => (h.trans hs).trans (hT hs)⟩

theorem Moved.wrote (h : Moved memmap kroot roots T s s') (base : Nat) : Wrote memmap kroot roots base [] T s s' :=
  ⟨h.spaces, h.same, h.free, h.apart, fun hf _ ha => by rw [stored_nil]; exact h.bytes hf ha, h.trans⟩

/-! ### The steps -/

/-- The translations with `x` at the window. -/
abbrev atScratch (s : Pmm) (kroot : Nat) (x : Option Nat) : Nat → Nat → Option Nat := remapped s kroot scratchPage x

theorem atScratch_here (s : Pmm) (x : Option Nat) : atScratch s kroot x kroot scratchPage = x := if_pos ⟨rfl, rfl⟩

/-- A copy to the frame in the window. -/
theorem Spaces.window_copyTo (h : Spaces memmap kroot roots s) (hcr3 : AnyRoot kroot roots cr3) {f o : Nat}
    (hf : Apart kroot roots s f) (htrans : translate s kroot scratchPage = some f)
    (hlen : o + bytes.length ≤ pageSize) :
    ∃ s', memcpyTo cr3 (vmmScratchVa + o) bytes s = some ((), s') ∧
      Wrote memmap kroot roots (f * pageSize + o) bytes (translate s) s s' ∧ s'.freePages = s.freePages := by
  have hsmall : f < 2 ^ 40 := Nat.lt_of_lt_of_le hf.lt h.trees.small
  have hrow : ∀ i < bytes.length, hwAddr s.mem cr3 (vmmScratchVa + o + i) = some (f * pageSize + o + i) := by
    intro i hi
    have := h.scratch_addr hcr3 (i := o + i) htrans hsmall (by omega)
    rwa [Nat.add_assoc, Nat.add_assoc]
  have hend : vmmScratchVa + o + bytes.length < 2 ^ 64 := by
    have : vmmScratchVa + pageSize < 2 ^ 64 := by decide
    omega
  have hout : ∀ a, ¬ InPage f a → stored s.mem (f * pageSize + o) bytes a = s.mem a := by
    intro a ha
    refine splice_out _ _ ?_
    by_contra hin
    exact ha ⟨by omega, by omega⟩
  obtain ⟨hspaces, hfree, hkept, htrans'⟩ := h.overwrite hf hout
  exact ⟨{ s with mem := stored s.mem (f * pageSize + o) bytes }, by rw [memcpyTo, storeAt_row hrow hend]; rfl,
    ⟨hspaces, ⟨rfl, rfl, rfl, rfl⟩, hfree.le, hkept, fun _ _ _ => rfl, htrans'⟩, hfree⟩

/-- Where nothing is entered in the window, a copy faults. -/
theorem Spaces.window_fault (h : Spaces memmap kroot roots s) (hcr3 : AnyRoot kroot roots cr3)
    (hnone : translate s kroot scratchPage = none) {o : Nat} (ho : o < pageSize) (b : UInt8) (bs : List UInt8) :
    memcpyTo cr3 (vmmScratchVa + o) (b :: bs) s = none := by
  have hpage : vmmScratchVa % pageSize = 0 := by decide
  have hnone : translate s kroot (vmmScratchVa / pageSize) = none := hnone
  have hsame : hwWalk s.mem 3 cr3 vmmScratchVa = hwWalk s.mem 3 kroot vmmScratchVa := by
    rw [hwWalk_top, hwWalk_top, h.shared hcr3 (by decide)]
  have hwalk := hwWalk_translate (h.scratch (.inl rfl)) fun q hq => by
    rw [hnone] at hq
    cases hq
  have haddr : hwAddr s.mem cr3 (vmmScratchVa + o) = none := by
    rw [hwAddr, hwWalk_page hpage ho, hsame, hwalk, hnone]
    exact ite_self none
  rw [memcpyTo, storeAt, haddr]
  rfl

/-- The table of the window is there, or there are pages enough to make it. -/
def WindowUsable (kroot : Nat) (s : Pmm) : Prop := WindowReady kroot s ∨ 3 ≤ s.freePages.card

/-- **The frame can be entered** when the table of the window is there, and that takes no page. -/
theorem Spaces.scratch_maps (h : Spaces memmap kroot roots s) (hkernel : kernel.pml4 = kroot * pageSize)
    (hready : WindowReady kroot s) {phys flags : Nat} (hphys : phys < 2 ^ 64) (hflags : flags < pageSize) {b : Bool}
    (hrun : vmmMap kernel vmmScratchVa phys flags s = some (b, s')) :
    b = true ∧ s.freePages.card ≤ s'.freePages.card := by
  obtain ⟨pt, hpt⟩ := Option.ne_none_iff_exists'.mp hready
  obtain ⟨h4, h3, h2, -⟩ := index_lt vmmScratchVa
  have hc : Covers (Looked kroot roots) kroot vmmScratchVa := covers_site (.inl ⟨rfl, rfl⟩)
  obtain ⟨hS₀, hS₁, hS₂, hS₃⟩ := hc.tables
  have hg : (pageWrite ||| pageUser) &&& (pageUser ||| pageWrite) < pageSize := by decide
  have heven : ((pageWrite ||| pageUser) &&& (pageUser ||| pageWrite)) % 2 = 0 := by decide
  -- every table is found, so none is made
  have hdown : ∀ {d i}, i < 512 → Looked kroot roots kroot ((tablePath vmmScratchVa).take d) →
      (tablePath vmmScratchVa).take (d + 1) = (tablePath vmmScratchVa).take d ++ [i] →
      StepsDown (fun d m t => Grown memmap id (Looked kroot roots) 0 s t ∧
          walkTo t kroot ((tablePath vmmScratchVa).take d) = some m)
        (fun _ => False) true (pageWrite ||| pageUser) d i := by
    intro d i hi hq htake m t ⟨hgrown, hw⟩
    have hkept : walkTo t kroot (tablePath vmmScratchVa) = some pt := hgrown.kept hS₃ hpt
    have hpres : view t.mem m i % 2 = 1 := by
      by_contra hne
      rw [← List.take_append_drop (d + 1) (tablePath vmmScratchVa), htake, List.append_assoc, walkTo, Radix.walk_append,
        show Radix.walk child (view t.mem) kroot _ = some m from hw, Option.bind_some, List.singleton_append, Radix.walk,
        child, if_neg hne] at hkept
      cases hkept
    have hflags := hgrown.tables.flags ⟨kroot, _, hq, hw⟩ hi (or_lt (view_lt t.mem m i) hg) (child_or hg heven)
    refine .inr ⟨_, _, nextLevel_present hi hpres, hgrown.trans hflags, ?_⟩
    rw [htake, walkTo, Radix.walk_concat, show Radix.walk child _ kroot _ = some m from hflags.kept hq hw, Option.bind_some,
      view_wrote t m hi (or_lt (view_lt t.mem m i) hg), Radix.set_self, child_or hg heven, child, if_pos hpres]
  rw [vmmMap, show pageOf vmmScratchVa = vmmScratchVa by decide] at hrun
  rcases withPageTable_run (hdown h4 hS₀ rfl) (hdown h3 hS₁ rfl) (hdown h2 hS₂ rfl) ⟨Grown.refl h.tables, rfl⟩ hkernel
    false _ with ⟨d, m, t, -, -, -, hfalse⟩ | ⟨pt', t, hr, hgrown, hw⟩
  · exact hfalse.elim
  · rw [hr] at hrun
    cases hrun
    have hsmall : pteCreate phys (flags ||| pagePresent) < 2 ^ 64 := by
      have hf := (flags_present hflags).1
      rw [pteCreate_eq hf]
      simp only [pageSize] at hf ⊢
      omega
    have hcount := (hgrown.tables.remap hS₃ hc.page hw (index_lt vmmScratchVa).2.2.2 hsmall).count
    exact ⟨rfl, hgrown.count.trans hcount⟩

/-- **The frame is entered in the window**, unless its table is missing and cannot be made. -/
theorem Spaces.window_map (hmap : GoodMap memmap) (h : Spaces memmap kroot roots s) (hkernel : kernel.pml4 = kroot * pageSize)
    {f : Nat} (hf : Apart kroot roots s f) :
    (∃ s', vmmMap kernel vmmScratchVa (f * pageSize) vmmKernelPage s = some (false, s') ∧ ¬ WindowUsable kroot s ∧
        Moved memmap kroot roots (translate s) s s') ∨
      ∃ s', vmmMap kernel vmmScratchVa (f * pageSize) vmmKernelPage s = some (true, s') ∧
        Moved memmap kroot roots (atScratch s kroot (some f)) s s' := by
  have hphys : f * pageSize < 2 ^ 64 := by
    have := Nat.lt_of_lt_of_le hf.lt h.trees.small
    simp only [pageSize]
    omega
  rcases h.map hmap (.inl ⟨rfl, rfl⟩) hkernel hphys (show vmmKernelPage < pageSize by decide) with
    ⟨s', hrun, hm⟩ | ⟨s', hrun, hm⟩
  · refine .inl ⟨s', hrun, fun husable => ?_, hm⟩
    rcases husable with hready | hmany
    · exact absurd (h.scratch_maps hkernel hready hphys (by decide) hrun).1 (by decide)
    · have := (h.map_count hmap (.inl ⟨rfl, rfl⟩) hkernel hphys (show vmmKernelPage < pageSize by decide) hrun).2 rfl
      omega
  · rw [Nat.mul_div_cancel _ (by decide)] at hm
    exact .inr ⟨s', hrun, hm⟩

/-- A frame can be entered in a window that is usable. -/
theorem WindowUsable.map (hmap : GoodMap memmap) (h : Spaces memmap kroot roots s) (hkernel : kernel.pml4 = kroot * pageSize)
    (husable : WindowUsable kroot s) {f : Nat} (hf : Apart kroot roots s f) :
    ∃ s', vmmMap kernel vmmScratchVa (f * pageSize) vmmKernelPage s = some (true, s') := by
  rcases h.window_map hmap hkernel hf with ⟨s', -, hnot, -⟩ | ⟨s', hrun, -⟩
  · exact absurd husable hnot
  · exact ⟨s', hrun⟩

/-- The window is emptied; its table stays. -/
theorem Spaces.window_unmap (hmap : GoodMap memmap) (h : Spaces memmap kroot roots s) (hkernel : kernel.pml4 = kroot * pageSize) :
    ∃ s', vmmUnmap kernel vmmScratchVa s = some ((), s') ∧ Moved memmap kroot roots (atScratch s kroot none) s s' ∧
      (WindowReady kroot s → WindowReady kroot s') := by
  obtain ⟨s', hrun, hm⟩ := h.unmap hmap (.inl ⟨rfl, rfl⟩) hkernel
  exact ⟨s', hrun, hm, h.unmap_ready (.inl ⟨rfl, rfl⟩) hkernel hrun⟩

/-- **Bytes are written to a frame through the window.** -/
theorem Spaces.window_write (hmap : GoodMap memmap) (h : Spaces memmap kroot roots s) (hkernel : kernel.pml4 = kroot * pageSize)
    (hcr3 : AnyRoot kroot roots cr3) {f o : Nat} (hf : Apart kroot roots s f)
    (hlen : o + bytes.length ≤ pageSize)
    (hrun : vmmMap kernel vmmScratchVa (f * pageSize) vmmKernelPage s = some (true, s')) :
    ∃ s₁ s₂, memcpyTo cr3 (vmmScratchVa + o) bytes s' = some ((), s₁) ∧ vmmUnmap kernel vmmScratchVa s₁ = some ((), s₂) ∧
      Wrote memmap kroot roots (f * pageSize + o) bytes (atScratch s kroot none) s s₂ ∧ WindowReady kroot s₂ ∧
      s'.freePages.card ≤ s₂.freePages.card := by
  rcases h.window_map hmap hkernel hf with ⟨s'', hrun', -⟩ | ⟨s'', hrun', hm⟩
  · rw [hrun] at hrun'
    cases hrun'
  rw [hrun] at hrun'
  cases hrun'
  have hsite : Site kroot roots kroot scratchPage := .inl ⟨rfl, rfl⟩
  have htrans : translate s' kroot scratchPage = some f := (hm.trans hsite).trans (atScratch_here s (some f))
  obtain ⟨s₁, hcopy, hw, hfree⟩ := hm.spaces.window_copyTo hcr3 (hm.apart hf) htrans hlen
  obtain ⟨s₂, hunmap, hm₂, hready⟩ := hw.spaces.window_unmap hmap hkernel
  refine ⟨s₁, s₂, hcopy, hunmap, (hw.before hm₂).after hm |>.congr fun {r page} hs => ?_, hready ?_, ?_⟩
  · simp only [atScratch, remapped]
    split
    · rfl
    · next hne => rw [hw.trans hs, hm.trans hs, atScratch, remapped, if_neg hne]
  · refine windowReady_of_translate ?_
    rw [hw.trans hsite, htrans]
    exact Option.some_ne_none f
  · rw [← hfree]
    exact hw.spaces.unmap_count (.inl ⟨rfl, rfl⟩) hkernel hunmap

end Window

end Blackmount.Mem
