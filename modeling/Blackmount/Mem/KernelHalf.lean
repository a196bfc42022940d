import Blackmount.Lib.Run
import Blackmount.Mem.Trees

/-!
# Mem — the kernel's half of every address space

`vmm_create_address_space` copies the upper half of the kernel's PML4 into the new one, once.

* `spaceStep`: the calls on the kernel's space and on those of processes, as the heap, `dma.c` and the processes
  make them, with the frames for what is mapped.
* `kernel_half_shared`: the processor translates the upper half in all spaces alike, at every step of every run in
  which no call needs a new entry in the upper half of a PML4 while there are spaces besides the kernel's, and none
  is for an address under a large page.
* `kernel_half_apart`: the first mapping of `dma.c`, after a process was made.
-/

namespace Blackmount.Mem
open Blackmount.Lib

/-- The memory, the address spaces of processes, and the frames that were allocated to be mapped. -/
structure SpaceState where
  pmm : Pmm
  spaces : List AddressSpace := []
  held : Finset Nat := ∅

/-- Spaces are named by their place in the list; all else is the kernel's, as `NULL` is. -/
inductive SpaceOp where
  | create
  | map (id : Option Nat) (virt phys flags : Nat)
  | unmap (id : Option Nat) (virt : Nat)
  | mapRange (id : Option Nat) (virt phys pages flags : Nat)
  | unmapRange (id : Option Nat) (virt pages : Nat)
  | allocPages (count : UInt64)
  | free (page : Nat)
  | write (addr : Nat) (byte : UInt8)

variable (kernel : AddressSpace)

def SpaceState.space (s : SpaceState) (id : Option Nat) : AddressSpace := (id.bind fun i => s.spaces[i]?).getD kernel

/-- The frames after an allocation of `count` pages that returned `phys`. -/
def heldAfter (held : Finset Nat) (phys : UInt64) (count : Nat) : Finset Nat :=
  if phys = 0 then held else held ∪ Finset.Ico (phys.toNat / pageSize) (phys.toNat / pageSize + count)

/-- A call; for `free`, of a page that was held, and for `write`, a store to the memory of one. -/
def spaceStep (s : SpaceState) : SpaceOp → Option SpaceState
  | .create => (vmmCreateAddressSpace kernel s.pmm).map fun r => { s with pmm := r.2, spaces := s.spaces ++ r.1.toList }
  | .map id virt phys flags => (vmmMap (s.space kernel id) virt phys flags s.pmm).map fun r => { s with pmm := r.2 }
  | .unmap id virt => (vmmUnmap (s.space kernel id) virt s.pmm).map fun r => { s with pmm := r.2 }
  | .mapRange id virt phys pages flags =>
      (vmmMapRange (s.space kernel id) virt phys pages flags s.pmm).map fun r => { s with pmm := r.2 }
  | .unmapRange id virt pages => (vmmUnmapRange (s.space kernel id) virt pages s.pmm).map fun r => { s with pmm := r.2 }
  | .allocPages count => (pmmAllocPages count s.pmm).map fun r =>
      { s with pmm := r.2, held := heldAfter s.held r.1 count.toNat }
  | .free page => (pmmFree (UInt64.ofNat (page * pageSize)) s.pmm).map fun m => { s with pmm := m, held := s.held.erase page }
  | .write addr byte => some { s with pmm := { s.pmm with mem := Function.update s.pmm.mem addr byte } }

/-- The page of the PML4. -/
def AddressSpace.root (space : AddressSpace) : Nat := space.pml4 / pageSize

/-- The walk for the address is plain, and when it is in the upper half its entry in the PML4 is present, or there
is no space but the kernel's. -/
def MapsSafely (s : SpaceState) (id : Option Nat) (virt : Nat) : Prop :=
  PlainTables s.pmm.mem (s.space kernel id).root virt ∧
    (256 ≤ pml4Index virt → s.spaces = [] ∨ view s.pmm.mem (s.space kernel id).root (pml4Index virt) % 2 = 1)

/-- What a call has to meet: the mappings, above all. -/
def SpaceSafe (s : SpaceState) : SpaceOp → Prop
  | .map id virt _ _ => MapsSafely kernel s id virt
  | .unmap id virt => PlainTables s.pmm.mem (s.space kernel id).root virt
  | .mapRange id virt _ pages _ => virt < 2 ^ 64 ∧ ∀ i < pages, MapsSafely kernel s id (pageAt virt i)
  | .unmapRange id virt pages => virt < 2 ^ 64 ∧ ∀ i < pages, PlainTables s.pmm.mem (s.space kernel id).root (pageAt virt i)
  | .free page => page ∈ s.held
  | .write addr _ => addr / pageSize ∈ s.held
  | _ => True

/-- **The upper half is the same in all spaces**, as the processor translates it. -/
def HalfShared (s : SpaceState) : Prop :=
  ∀ space ∈ s.spaces, ∀ virt, 256 ≤ pml4Index virt →
    hwWalk s.pmm.mem 3 space.root virt = hwWalk s.pmm.mem 3 kernel.root virt

/-! ### The invariant -/

/-- The pages of all PML4s. -/
def Roots (s : SpaceState) (x : Nat) : Prop := x = kernel.root ∨ ∃ space ∈ s.spaces, x = space.root

structure SpaceInv (memmap : List MemmapEntry) (s : SpaceState) : Prop where
  trees : Trees memmap (Roots kernel s) s.pmm
  aligned : ∀ space ∈ s.spaces, space.pml4 = space.root * pageSize
  shared : ∀ space ∈ s.spaces, ∀ i, 256 ≤ i →
    hwNext 3 (view s.pmm.mem space.root i) = hwNext 3 (view s.pmm.mem kernel.root i)
  held : ∀ p ∈ s.held, p ≠ 0 ∧ p < s.pmm.totalPages ∧ p ∉ s.pmm.freePages ∧ UsablePage memmap p ∧ s.pmm.Outside p ∧
    ∀ {r v d}, Roots kernel s r → d ≤ 3 → hwTable s.pmm.mem r v d ≠ some p

variable {kernel} {memmap : List MemmapEntry} {s : SpaceState}

/-- Below the PML4 the walks are the same. -/
theorem hwWalk_top (mem : Bytes) (r virt : Nat) :
    hwWalk mem 3 r virt = (hwNext 3 (view mem r (hwIndex 3 virt))).bind fun c => hwWalk mem 2 c virt := by
  have hlarge : hwLarge 3 (view mem r (hwIndex 3 virt)) = false := rfl
  rw [hwWalk, hwNext]
  by_cases hpres : view mem r (hwIndex 3 virt) % 2 = 1
  · rw [if_pos hpres, if_neg (by rw [hlarge]; decide), if_pos ⟨hpres, hlarge⟩, Option.bind_some]
  · rw [if_neg hpres, if_neg fun h => hpres h.1, Option.bind_none]

theorem SpaceInv.half (h : SpaceInv kernel memmap s) : HalfShared kernel s := by
  intro space hspace virt hvirt
  rw [hwWalk_top, hwWalk_top, h.shared space hspace (hwIndex 3 virt) hvirt]

theorem roots_space (s : SpaceState) (id : Option Nat) : Roots kernel s (s.space kernel id).root := by
  rw [SpaceState.space]
  cases hid : id.bind fun i => s.spaces[i]? with
  | none => exact .inl rfl
  | some space =>
      obtain ⟨i, -, hi⟩ := Option.bind_eq_some_iff.mp hid
      exact .inr ⟨space, List.mem_of_getElem? hi, rfl⟩

theorem SpaceInv.pml4 (h : SpaceInv kernel memmap s) (hroot : kernel.pml4 = kernel.root * pageSize) (id : Option Nat) :
    (s.space kernel id).pml4 = (s.space kernel id).root * pageSize := by
  rw [SpaceState.space]
  cases hid : id.bind fun i => s.spaces[i]? with
  | none => exact hroot
  | some space =>
      obtain ⟨i, -, hi⟩ := Option.bind_eq_some_iff.mp hid
      exact h.aligned space (List.mem_of_getElem? hi)

/-! ### Steps -/

/-- The entries of PML4s that may change: those of the lower half, and all while there is no space. -/
def MayChange (s : SpaceState) (_ i : Nat) : Prop := i < 256 ∨ s.spaces = []

theorem SpaceInv.deeper (h : SpaceInv kernel memmap s) {pmm : Pmm}
    (hg : Deeper memmap (Roots kernel s) (MayChange s) s.pmm pmm) : SpaceInv kernel memmap { s with pmm := pmm } := by
  refine ⟨hg.trees, h.aligned, fun space hspace i hi => ?_, fun p hp => ?_⟩
  · have hsame : ∀ {r}, Roots kernel s r → hwNext 3 (view pmm.mem r i) = hwNext 3 (view s.pmm.mem r i) := by
      intro r hr
      rcases hg.top (j := i) hr with e | hlow | hnone
      · exact e
      · omega
      · rw [hnone] at hspace
        cases hspace
    rw [hsame (.inr ⟨space, hspace, rfl⟩), hsame (.inl rfl)]
    exact h.shared space hspace i hi
  · obtain ⟨h0, hlt, hfree, huse, hout, htable⟩ := h.held p hp
    refine ⟨h0, by rw [hg.same.totalPages]; exact hlt, fun hin => hfree (hg.free hin), huse, hg.same.outside.mpr hout,
      fun {r v d} hr hd hm => ?_⟩
    rcases hg.fresh hr hd hm with hm | hm
    · exact htable hr hd hm
    · exact hfree hm

/-- What is done to frames and free pages. -/
theorem SpaceInv.aside (h : SpaceInv kernel memmap s) {pmm : Pmm} {held : Finset Nat} (hsound : pmm.Sound memmap)
    (hsame : Pmm.Same s.pmm pmm)
    (hfree : ∀ {r v d m}, Roots kernel s r → d ≤ 3 → hwTable s.pmm.mem r v d = some m → m ∉ pmm.freePages)
    (hmem : ∀ {r v d m}, Roots kernel s r → d ≤ 3 → hwTable s.pmm.mem r v d = some m → ∀ a, InPage m a →
      pmm.mem a = s.pmm.mem a)
    (hheld : ∀ p ∈ held, p ≠ 0 ∧ p < s.pmm.totalPages ∧ p ∉ pmm.freePages ∧ UsablePage memmap p ∧ s.pmm.Outside p ∧
      ∀ {r v d}, Roots kernel s r → d ≤ 3 → hwTable s.pmm.mem r v d ≠ some p) :
    SpaceInv kernel memmap { s with pmm := pmm, held := held } := by
  obtain ⟨htrees, htable, hview⟩ := h.trees.aside hsound hsame hfree hmem
  have hroot : ∀ {r}, Roots kernel s r → ∀ i, view pmm.mem r i = view s.pmm.mem r i := by
    intro r hr
    have htop : hwTable s.pmm.mem r 0 0 = some r := rfl
    exact hview hr (by omega) htop
  refine ⟨htrees, h.aligned, fun space hspace i hi => ?_, fun p hp => ?_⟩
  · rw [hroot (.inr ⟨space, hspace, rfl⟩), hroot (.inl rfl)]
    exact h.shared space hspace i hi
  · obtain ⟨h0, hlt, hnot, huse, hout, hno⟩ := hheld p hp
    refine ⟨h0, by rw [hsame.totalPages]; exact hlt, hnot, huse, hsame.outside.mpr hout, fun {r v d} hr hd hm => ?_⟩
    rw [htable hr hd] at hm
    exact hno hr hd hm

theorem MapsSafely.mayChange {id : Option Nat} {virt : Nat} (hsafe : MapsSafely kernel s id virt) :
    hwNext 3 (view s.pmm.mem (s.space kernel id).root (hwIndex 3 virt)) = none →
      MayChange s (s.space kernel id).root (hwIndex 3 virt) := by
  intro hnone
  by_cases hlow : hwIndex 3 virt < 256
  · exact .inl hlow
  · rcases hsafe.2 (show 256 ≤ hwIndex 3 virt by omega) with he | hpres
    · exact .inr he
    · have hpres : view s.pmm.mem (s.space kernel id).root (hwIndex 3 virt) % 2 = 1 := hpres
      rw [hwNext, if_pos ⟨hpres, rfl⟩] at hnone
      cases hnone

/-- **A new space.** -/
theorem SpaceInv.create (hmap : GoodMap memmap) (h : SpaceInv kernel memmap s)
    (hroot : kernel.pml4 = kernel.root * pageSize) :
    ∃ s', spaceStep kernel s .create = some s' ∧ SpaceInv kernel memmap s' := by
  rcases @vmmCreateAddressSpace_spec memmap kernel s.pmm hmap h.trees.sound h.trees.placed with
    ⟨pmm, hr, hsound, hsame, hfree, hmem⟩ | ⟨f, n, pmm, hr, hc⟩
  · have hsub : pmm.freePages ⊆ s.pmm.freePages := by
      rcases hfree with e | ⟨f, -, -, e⟩
      · rw [e]
      · rw [e]
        exact Finset.erase_subset _ _
    refine ⟨{ s with pmm := pmm }, by rw [spaceStep, hr]; simp, h.aside hsound hsame ?_ ?_ ?_⟩
    · exact fun hr hd hm hin => (h.trees.used hr hd hm).1 (hsub hin)
    · intro r v d m hr hd hm a ha
      obtain ⟨hnot, hout⟩ := h.trees.used hr hd hm
      refine hmem a (hout.off ha) fun f hf hfa => hnot ?_
      rw [InPage.eq ha hfa]
      exact hf
    · intro p hp
      obtain ⟨h0, hlt, hnot, hrest⟩ := h.held p hp
      exact ⟨h0, hlt, fun hin => hnot (hsub hin), hrest⟩
  · obtain ⟨htrees, hroots, hupper, htables⟩ := h.trees.created (.inl rfl) hroot hc
    have hnroot : AddressSpace.root ⟨f * pageSize, n * pageSize⟩ = n := Nat.mul_div_cancel _ (by decide)
    have hnew : ∀ {x}, Roots kernel { s with pmm := pmm, spaces := s.spaces ++ [⟨f * pageSize, n * pageSize⟩] } x →
        Roots kernel s x ∨ x = n := by
      rintro x (rfl | ⟨space, hspace, rfl⟩)
      · exact .inl (.inl rfl)
      · rcases List.mem_append.mp hspace with hspace | hspace
        · exact .inl (.inr ⟨space, hspace, rfl⟩)
        · rw [List.mem_singleton.mp hspace]
          exact .inr hnroot
    have hfree : pmm.freePages ⊆ s.pmm.freePages := by
      rw [hc.free]
      exact (Finset.erase_subset _ _).trans (Finset.erase_subset _ _)
    refine ⟨{ s with pmm := pmm, spaces := s.spaces ++ [⟨f * pageSize, n * pageSize⟩] }, by rw [spaceStep, hr]; rfl,
      ⟨htrees.sound, htrees.placed, htrees.small, fun hr hr' => htrees.typed (hnew hr) (hnew hr'),
        fun hr => htrees.used (hnew hr)⟩, fun space hspace => ?_, fun space hspace i hi => ?_, fun p hp => ?_⟩
    · rcases List.mem_append.mp hspace with hspace | hspace
      · exact h.aligned space hspace
      · rw [List.mem_singleton.mp hspace, hnroot]
    · rcases List.mem_append.mp hspace with hspace | hspace
      · simp only
        rw [hroots (.inr ⟨space, hspace, rfl⟩), hroots (.inl rfl)]
        exact h.shared space hspace i hi
      · simp only
        rw [List.mem_singleton.mp hspace, hnroot, hupper i hi]
    · obtain ⟨h0, hlt, hnot, huse, hout, hno⟩ := h.held p hp
      refine ⟨h0, by rw [hc.same.totalPages]; exact hlt, fun hin => hnot (hfree hin), huse, hc.same.outside.mpr hout,
        fun {r v d} hr hd hm => ?_⟩
      rcases htables (hnew hr) hd hm with rfl | ⟨r', hr', hm⟩
      · exact hnot hc.pages.2.1
      · exact hno hr' hd hm

/-- **Frames for what is mapped.** -/
theorem SpaceInv.allocPages (hmap : GoodMap memmap) (h : SpaceInv kernel memmap s) (count : UInt64) :
    ∃ s', spaceStep kernel s (.allocPages count) = some s' ∧ SpaceInv kernel memmap s' := by
  obtain ⟨r, pmm, hr, ⟨rfl, rfl, -⟩ | ⟨p, rfl, hrun, -, rfl⟩⟩ := Pmm.pmmAllocPages_spec h.trees.placed count
  · exact ⟨s, by rw [spaceStep, hr]; rfl, h⟩
  · obtain ⟨hp0, haddr, -, hkept⟩ := h.trees.sound.allocRun hmap h.trees.placed hrun
    obtain ⟨hsound, hsame, hset⟩ := h.trees.sound.allocates h.trees.placed hrun
    have hpage : (pageAddr p).toNat / pageSize = p := by
      rw [haddr]
      exact Nat.mul_div_cancel _ (by decide)
    have hrunFree : ∀ q ∈ Finset.Ico p (p + count.toNat), q ∈ s.pmm.freePages := by
      intro q hq
      rw [Finset.mem_Ico] at hq
      have := Pmm.Sound.run_free h.trees.placed hrun (j := q - p) (by omega)
      rwa [show p + (q - p) = q by omega] at this
    refine ⟨_, by rw [spaceStep, hr]; rfl, h.aside hsound hsame ?_ ?_ ?_⟩
    · intro r v d m hr hd hm
      rw [hset]
      exact fun hin => (h.trees.used hr hd hm).1 (Finset.mem_sdiff.mp hin).1
    · intro r v d m hr hd hm a ha
      obtain ⟨hnot, hout⟩ := h.trees.used hr hd hm
      refine hkept a (fun hin => hnot (hrunFree m ?_)) (hout.off ha)
      simp only [InPage, pageSize] at ha hin
      rw [Finset.mem_Ico]
      omega
    · intro q hq
      rw [heldAfter, if_neg (pageAddr_ne hp0 haddr), hpage, Finset.mem_union] at hq
      rw [hset]
      rcases hq with hq | hq
      · obtain ⟨h0, hlt, hnot, hrest⟩ := h.held q hq
        exact ⟨h0, hlt, fun hin => hnot (Finset.mem_sdiff.mp hin).1, hrest⟩
      · have hfree := hrunFree q hq
        obtain ⟨huse, hout⟩ := h.trees.sound.free q hfree
        refine ⟨?_, ((Pmm.mem_freePages h.trees.placed).mp hfree).1, fun hin => (Finset.mem_sdiff.mp hin).2 hq, huse, hout,
          fun hr hd hm => (h.trees.used hr hd hm).1 hfree⟩
        rintro rfl
        exact hmap.nonzero huse

/-- **A frame given back.** -/
theorem SpaceInv.free (h : SpaceInv kernel memmap s) {page : Nat} (hpage : page ∈ s.held) :
    ∃ s', spaceStep kernel s (.free page) = some s' ∧ SpaceInv kernel memmap s' := by
  obtain ⟨h0, hlt, -, huse, hout, hno⟩ := h.held page hpage
  have h52 := h.trees.sound.sized.total
  obtain ⟨pmm, hr, hsound, hsame, hset, hmem⟩ := h.trees.sound.release h.trees.placed (k := 0) h0 (by omega)
    (fun _ => ⟨huse, hout⟩) (by decide)
  rw [Nat.add_zero] at hr
  rw [if_pos hlt] at hset
  refine ⟨_, by rw [spaceStep, hr]; rfl, h.aside hsound hsame ?_ ?_ ?_⟩
  · intro r v d m hroot hd hm hin
    rw [hset] at hin
    rcases Finset.mem_insert.mp hin with e | hin
    · exact hno hroot hd (hm.trans (congrArg some e))
    · exact (h.trees.used hroot hd hm).1 hin
  · exact fun hr hd hm a ha => hmem a ((h.trees.used hr hd hm).2.off ha)
  · intro p hp
    obtain ⟨hne, hp⟩ := Finset.mem_erase.mp hp
    obtain ⟨hp0, hplt, hnot, hrest⟩ := h.held p hp
    refine ⟨hp0, hplt, fun hin => ?_, hrest⟩
    rw [hset] at hin
    rcases Finset.mem_insert.mp hin with e | hin
    · exact hne e
    · exact hnot hin

/-- **A store to the memory of a frame.** -/
theorem SpaceInv.write (h : SpaceInv kernel memmap s) {addr : Nat} {byte : UInt8} (haddr : addr / pageSize ∈ s.held) :
    SpaceInv kernel memmap { s with pmm := { s.pmm with mem := Function.update s.pmm.mem addr byte } } := by
  obtain ⟨-, -, -, -, hout, hno⟩ := h.held _ haddr
  have hin : InPage (addr / pageSize) addr := by
    simp only [InPage, pageSize]
    omega
  have hkept : ∀ a, ¬ s.pmm.OffBitmap a → Function.update s.pmm.mem addr byte a = s.pmm.mem a := by
    intro a ha
    refine Function.update_of_ne (fun e => ha ?_) _ _
    rw [e]
    exact hout.off hin
  obtain ⟨hsound, hfree⟩ := h.trees.sound.write hkept
  refine h.aside hsound ⟨rfl, rfl, rfl, rfl⟩ ?_ ?_ ?_
  · intro r v d m hr hd hm
    rw [hfree]
    exact (h.trees.used hr hd hm).1
  · intro r v d m hr hd hm a ha
    refine Function.update_of_ne (fun e => ?_) _ _
    rw [e] at ha
    exact hno hr hd (hm.trans (congrArg some (InPage.eq ha hin)))
  · rw [hfree]
    exact h.held

/-- **Every step keeps the invariant.** -/
theorem SpaceInv.step (hmap : GoodMap memmap) (hroot : kernel.pml4 = kernel.root * pageSize)
    (h : SpaceInv kernel memmap s) {o : SpaceOp} (hsafe : SpaceSafe kernel s o) :
    ∃ s', spaceStep kernel s o = some s' ∧ SpaceInv kernel memmap s' := by
  cases o with
  | create => exact h.create hmap hroot
  | map id virt phys flags =>
      obtain ⟨b, pmm, hr, hg⟩ := h.trees.map hmap (roots_space s id) hsafe.1 hsafe.mayChange (h.pml4 hroot id) phys flags
      exact ⟨_, by rw [spaceStep, hr]; rfl, h.deeper hg⟩
  | unmap id virt =>
      obtain ⟨pmm, hr, hg⟩ := h.trees.unmap (X := MayChange s) (roots_space s id) hsafe (h.pml4 hroot id)
      exact ⟨_, by rw [spaceStep, hr]; rfl, h.deeper hg⟩
  | mapRange id virt phys pages flags =>
      obtain ⟨hvirt, hsafe⟩ := hsafe
      obtain ⟨b, pmm, hr, hg⟩ := h.trees.mapRange hmap (roots_space s id) (h.pml4 hroot id) hvirt
        (fun j hj => (hsafe j hj).1) (fun j hj => (hsafe j hj).mayChange) phys flags
      exact ⟨_, by rw [spaceStep, hr]; rfl, h.deeper hg⟩
  | unmapRange id virt pages =>
      obtain ⟨hvirt, hsafe⟩ := hsafe
      obtain ⟨pmm, hr, hg⟩ := h.trees.unmapRange (X := MayChange s) (roots_space s id) (h.pml4 hroot id) hvirt hsafe
      exact ⟨_, by rw [spaceStep, hr]; rfl, h.deeper hg⟩
  | allocPages count => exact h.allocPages hmap count
  | free page => exact h.free hsafe
  | write addr byte => exact ⟨_, rfl, h.write hsafe⟩

/-- **The kernel's half is the same everywhere.**  The tables of the boot loader are the kernel's: in use, outside the
bitmap, each at one depth, below 2^52. -/
theorem kernel_half_shared {memmap : List MemmapEntry} (hmap : GoodMap memmap) {kernel : AddressSpace}
    (hroot : kernel.pml4 = kernel.root * pageSize) {boot : Pmm} (hboot : Trees memmap (· = kernel.root) boot)
    {os : List SpaceOp} (hsafe : Meets (spaceStep kernel) (SpaceSafe kernel) { pmm := boot } os) :
    HalfShared kernel { pmm := boot } ∧
      Along (spaceStep kernel) (fun _ _ s => HalfShared kernel s) { pmm := boot } os ∧
      (run (spaceStep kernel) { pmm := boot } os).isSome := by
  have hroots : ∀ {x}, Roots kernel { pmm := boot } x → x = kernel.root := by
    rintro x (hx | ⟨space, hspace, -⟩)
    · exact hx
    · cases hspace
  have hinv : SpaceInv kernel memmap { pmm := boot } :=
    ⟨⟨hboot.sound, hboot.placed, hboot.small, fun hr hr' => hboot.typed (hroots hr) (hroots hr'),
      fun hr => hboot.used (hroots hr)⟩, fun _ h => (by cases h), fun _ h => (by cases h), fun _ h => (by simp at h)⟩
  refine ⟨hinv.half, along_of_inv (fun s o s' hI hC hs => ?_) hinv hsafe, ?_⟩
  · obtain ⟨s₁, hr, hI₁⟩ := hI.step hmap hroot hC
    rw [hs] at hr
    cases hr
    exact ⟨hI₁, hI₁.half⟩
  · obtain ⟨s₁, hs₁⟩ := run_defined (fun s o hI hC => hI.step hmap hroot hC) hinv hsafe
    rw [hs₁]
    rfl

/-! ### Runs on fixed inputs -/

instance (mem : Bytes) (n virt : Nat) : Decidable (PlainTables mem n virt) := by
  delta PlainTables PlainEntry
  infer_instance

instance (kernel : AddressSpace) (s : SpaceState) (id : Option Nat) (virt : Nat) : Decidable (MapsSafely kernel s id virt) := by
  delta MapsSafely
  infer_instance

instance (kernel : AddressSpace) (s : SpaceState) (o : SpaceOp) : Decidable (SpaceSafe kernel s o) := by
  apply SpaceOp.casesOn (motive := fun o => Decidable (SpaceSafe kernel s o)) o <;> intros <;>
    (delta SpaceSafe; infer_instance)

/-- The allocator leaves the tables of the boot loader alone. -/
theorem view_adopted {n : Nat} (hn : n ≤ 4) (i : Nat) : view adoptedPmm.mem n i = view adoptedTables n i := by
  let placed : Pmm := Pmm.place ⟨adoptedTables, 0xFFFF800000000000, 0, 4, 32, 0, 0x20000⟩ (0x10000 + 0xFFFF800000000000)
  have hinit : adoptedPmm = Pmm.passes adoptedMap placed := by rfl
  have hphys : placed.bitmapPhys = 0x10000 := by decide
  have hsized : placed.Sized := ⟨by decide, by decide⟩
  rw [hinit]
  refine view_congr (fun a ha => ?_) i
  have hlow : a < placed.bitmapPhys := by
    rw [hphys]
    simp only [pageSize] at ha
    omega
  exact (Pmm.passes_off hsized (.inl hlow)).trans (Pmm.place_off hlow)

/-- The entries of the boot loader. -/
theorem view_adoptedTables (n i : Nat) :
    view adoptedTables n i =
      if n = 4 ∧ i = 1 then 0x6003 else if n = 4 ∧ i = 0 then 0x5003 + pageNx else if n = 3 ∧ i = 1 then 0x200083
      else if n = 3 ∧ i = 0 then 0x4003 else if n = 2 ∧ i = 0 then 0x3003 else if n = 1 ∧ i = 0 then 0x2003 else 0 := by
  have hplaces : adoptedTables = wr64 (wr64 (wr64 (wr64 (wr64 (wr64 (fun _ => 0) (1 * pageSize + 8 * 0) 0x2003)
      (2 * pageSize + 8 * 0) 0x3003) (3 * pageSize + 8 * 0) 0x4003) (3 * pageSize + 8 * 1) 0x200083)
      (4 * pageSize + 8 * 0) (0x5003 + pageNx)) (4 * pageSize + 8 * 1) 0x6003 := rfl
  have hzero : view (fun _ => 0) n i = 0 := view_zero (fun _ _ => rfl) i
  rw [hplaces, view_wr64 _ _ _ (by decide), view_wr64 _ _ _ (by decide), view_wr64 _ _ _ (by decide),
    view_wr64 _ _ _ (by decide), view_wr64 _ _ _ (by decide), view_wr64 _ _ _ (by decide)]
  simp only [Radix.set, hzero]
  rfl

/-- The tables of the boot loader are in pages 1 to 4, one at each depth. -/
theorem adopted_next {d i c : Nat} (hd : d < 3) (h : hwNext (3 - d) (view adoptedPmm.mem (d + 1) i) = some c) : c = d + 2 := by
  rw [view_adopted (by omega), view_adoptedTables] at h
  have hcases : (i = 0 ∨ i = 1) ∨ ¬ (i = 0 ∨ i = 1) := Classical.em _
  rcases hcases with hi | hi
  · have hall : ∀ d < 3, ∀ i < 2, ∀ c ∈ hwNext (3 - d) (view adoptedTables (d + 1) i), c = d + 2 := by decide +kernel
    rw [← view_adoptedTables] at h
    exact hall d hd i (by omega) c h
  · rw [if_neg (by omega), if_neg (by omega), if_neg (by omega), if_neg (by omega), if_neg (by omega), if_neg (by omega)] at h
    cases h

theorem adopted_tables {v d m : Nat} (hd : d ≤ 3) (h : hwTable adoptedPmm.mem 1 v d = some m) : m = d + 1 := by
  induction d generalizing m with
  | zero =>
      cases h
      rfl
  | succ d ih =>
      obtain ⟨m₀, hm₀⟩ := Option.isSome_iff_exists.mp (hwTable_above (d := d) (k := d + 1) (by rw [h]; rfl) (by omega))
      rw [hwTable_succ hm₀, ih (by omega) hm₀] at h
      exact adopted_next (by omega) h

theorem adopted_trees : Trees adoptedMap (· = adoptedSpace.root) adoptedPmm := by
  have hb : adoptedPmm.bitmap ≠ 0 := by decide +kernel
  have hpages : ∀ d < 4, d + 1 ∉ adoptedPmm.freePages ∧ ((d + 1) * pageSize + pageSize ≤ adoptedPmm.bitmapPhys ∨
      adoptedPmm.bitmapPhys + adoptedPmm.bitmapSize ≤ (d + 1) * pageSize) := by decide +kernel
  refine ⟨pmmInit_sound adoptedMap_good hb, hb, by decide +kernel, ?_, ?_⟩
  · rintro r r' v v' d d' m rfl rfl hd hd' hm hm'
    have h₁ := adopted_tables hd hm
    have h₂ := adopted_tables hd' hm'
    omega
  · rintro r v d m rfl hd hm
    rw [adopted_tables hd hm]
    exact hpages d (by omega)

/-- The window of `dma.c`. -/
def dmaWindow : Nat := 0xFFFFE00000000000

/-- The window is used before the first process, and again after it. -/
def sharedRun : List SpaceOp :=
  [.allocPages 1, .map none dmaWindow 0x5000 3, .create, .mapRange none (dmaWindow + 0x1000) 0x6000 2 3,
    .map (some 0) 0x400000 0x7000 7, .unmap none dmaWindow]

theorem kernel_half_shared_sharedRun :
    Meets (spaceStep adoptedSpace) (SpaceSafe adoptedSpace) { pmm := adoptedPmm } sharedRun ∧
      Along (spaceStep adoptedSpace) (fun _ _ s => HalfShared adoptedSpace s) { pmm := adoptedPmm } sharedRun := by
  have hsafe : Meets (spaceStep adoptedSpace) (SpaceSafe adoptedSpace) { pmm := adoptedPmm } sharedRun := by decide +kernel
  exact ⟨hsafe, (kernel_half_shared adoptedMap_good rfl adopted_trees hsafe).2.1⟩

/-- **The first mapping in the window after a process was made is the kernel's alone.** -/
theorem kernel_half_apart :
    Trees adoptedMap (· = adoptedSpace.root) adoptedPmm ∧
      ∃ s, run (spaceStep adoptedSpace) { pmm := adoptedPmm } [.create, .map none dmaWindow 0x5000 3] = some s ∧
        256 ≤ pml4Index dmaWindow ∧ hwWalk s.pmm.mem 3 adoptedSpace.root dmaWindow = some 0x5000 ∧
        (∃ space ∈ s.spaces, hwWalk s.pmm.mem 3 space.root dmaWindow = none) ∧ ¬ HalfShared adoptedSpace s := by
  have hend : (run (spaceStep adoptedSpace) { pmm := adoptedPmm } [.create, .map none dmaWindow 0x5000 3]).any
      fun (s : SpaceState) => decide (hwWalk s.pmm.mem 3 adoptedSpace.root dmaWindow = some 0x5000 ∧
        ∃ space ∈ s.spaces, hwWalk s.pmm.mem 3 space.root dmaWindow = none) := by decide +kernel
  obtain ⟨s, hs, hp⟩ := (Option.any_eq_true _ _).mp hend
  obtain ⟨hkernel, space, hspace, hnone⟩ := of_decide_eq_true hp
  refine ⟨adopted_trees, s, hs, by decide, hkernel, ⟨space, hspace, hnone⟩, fun hshared => ?_⟩
  have := hshared space hspace dmaWindow (by decide)
  rw [hnone, hkernel] at this
  cases this

end Blackmount.Mem
