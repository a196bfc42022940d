import Blackmount.Mem.Break

/-!
# Mem — the pages that a page takes

How many free pages `map_user_page` takes, and how many it needs: the frame, and tables for the scratch page and for the
page of the process.

* `Spaces.mapUserPage_count`: it takes seven pages at most, and fails with fewer only.
* `runsShort_of_few`: a heap that is to grow by more pages than are free runs out half way, unless they are that few.
-/

namespace Blackmount.Mem
open Blackmount.Lib

section Count

variable {memmap : List MemmapEntry} {kroot r v : Nat} {roots : Nat → Prop} {kernel space : AddressSpace} {cr3 : Nat}
  {s s' : Pmm}

/-! ### The table of the scratch page -/

/-- The page at `VMM_SCRATCH_VA`. -/
def scratchPage : Nat := vmmScratchVa / pageSize

/-- The table that it is entered in is there. -/
def WindowReady (kroot : Nat) (s : Pmm) : Prop := walkTo s kroot (tablePath vmmScratchVa) ≠ none

/-- What is entered there has a table. -/
theorem windowReady_of_translate (h : translate s kroot scratchPage ≠ none) : WindowReady kroot s := by
  intro hnone
  have hpath := walkTo_page s kroot vmmScratchVa
  refine h (hpath.symm.trans ?_)
  rw [walkTo, Radix.walk_concat, show Radix.walk child (view s.mem) kroot (tablePath vmmScratchVa) = none from hnone]
  rfl

/-- It stays when a page is mapped, and when one is unmapped. -/
theorem Spaces.map_ready (hmap : GoodMap memmap) (h : Spaces memmap kroot roots s) (hat : At kroot roots r v)
    (hroot : space.pml4 = r * pageSize) {phys flags : Nat} (hphys : phys < 2 ^ 64)
    (hflags : flags < pageSize) {b : Bool} (hrun : vmmMap space v phys flags s = some (b, s')) (hready : WindowReady kroot s) :
    WindowReady kroot s' := by
  obtain ⟨pt, hpt⟩ := Option.ne_none_iff_exists'.mp hready
  have hc : Covers (Looked kroot roots) kroot vmmScratchVa := covers_site (.inl ⟨rfl, rfl⟩)
  have hkept : walkTo s' kroot (tablePath vmmScratchVa) = some pt := by
    rcases vmmMap_spec hmap h.tables (covers_site hat.site) hroot hphys hflags with ⟨s₁, hrun₁, hg, -⟩ | ⟨s₁, hrun₁, hm⟩
    · rw [hrun] at hrun₁
      cases hrun₁
      exact hg.kept hc.tables.2.2.2 hpt
    · rw [hrun] at hrun₁
      cases hrun₁
      exact hm.kept hc.tables.2.2.2 hpt
  exact fun hnone => absurd (hkept.symm.trans hnone) (Option.some_ne_none pt)

theorem Spaces.unmap_ready (h : Spaces memmap kroot roots s) (hat : At kroot roots r v) (hroot : space.pml4 = r * pageSize)
    (hrun : vmmUnmap space v s = some ((), s')) (hready : WindowReady kroot s) : WindowReady kroot s' := by
  obtain ⟨pt, hpt⟩ := Option.ne_none_iff_exists'.mp hready
  have hc : Covers (Looked kroot roots) kroot vmmScratchVa := covers_site (.inl ⟨rfl, rfl⟩)
  obtain ⟨s₁, hrun₁, hm⟩ := vmmUnmap_spec h.tables (covers_site hat.site) hroot
  rw [hrun] at hrun₁
  cases hrun₁
  have hkept : walkTo s' kroot (tablePath vmmScratchVa) = some pt := hm.kept hc.tables.2.2.2 hpt
  exact fun hnone => absurd (hkept.symm.trans hnone) (Option.some_ne_none pt)

/-! ### Pages taken -/

/-- `vmm_map` takes three pages at most, and fails with fewer only. -/
theorem Spaces.map_count (hmap : GoodMap memmap) (h : Spaces memmap kroot roots s) (hat : At kroot roots r v)
    (hroot : space.pml4 = r * pageSize) {phys flags : Nat} (hphys : phys < 2 ^ 64) (hflags : flags < pageSize) {b : Bool}
    (hrun : vmmMap space v phys flags s = some (b, s')) :
    s.freePages.card ≤ s'.freePages.card + 3 ∧ (b = false → s.freePages.card ≤ 2) := by
  rcases vmmMap_spec hmap h.tables (covers_site hat.site) hroot hphys hflags with ⟨s₁, hrun₁, hg, hempty⟩ | ⟨s₁, hrun₁, hm⟩
  · rw [hrun] at hrun₁
    cases hrun₁
    have hcount := hg.count
    rw [hempty, Finset.card_empty] at hcount
    exact ⟨by omega, fun _ => by omega⟩
  · rw [hrun] at hrun₁
    cases hrun₁
    exact ⟨hm.count, fun hb => by cases hb⟩

theorem Spaces.unmap_count (h : Spaces memmap kroot roots s) (hat : At kroot roots r v) (hroot : space.pml4 = r * pageSize)
    (hrun : vmmUnmap space v s = some ((), s')) : s.freePages.card ≤ s'.freePages.card := by
  obtain ⟨s₁, hrun₁, hm⟩ := vmmUnmap_spec h.tables (covers_site hat.site) hroot
  rw [hrun] at hrun₁
  cases hrun₁
  exact hm.count

/-- `vmm_alloc_page` takes four pages at most, and fails with fewer only. -/
theorem Spaces.allocPage_count (hmap : GoodMap memmap) (h : Spaces memmap kroot roots s) (hat : At kroot roots r v)
    (hroot : space.pml4 = r * pageSize) {flags x : Nat} (hflags : flags < pageSize) (hv : v ≠ 0)
    (hrun : vmmAllocPage space v flags s = some (x, s')) :
    (x = 0 → s.freePages.card ≤ 3) ∧ (x ≠ 0 → s.freePages.card ≤ s'.freePages.card + 4) := by
  rw [vmmAllocPage] at hrun
  obtain ⟨phys, s₁, halloc, hrun⟩ := bind_some.mp hrun
  rcases h.trees.sound.alloc hmap h.trees.placed with
    ⟨hnone, hempty⟩ | ⟨p, s₂, hsome, hp, hp0, haddr, -, -, hset, -, -⟩
  · rw [show allocFrame s = some (0, s) from hnone] at halloc
    cases halloc
    cases hrun
    exact ⟨fun _ => by rw [hempty, Finset.card_empty]; omega, fun hne => absurd rfl hne⟩
  · have hcard := Finset.card_erase_add_one hp
    rw [← hset] at hcard
    obtain ⟨q, s₃, hsome', -, -, -, hmoved, -⟩ := (h.alloc hmap).resolve_left fun hnone => by
      rw [show allocFrame s = some (pageAddr p, s₂) from hsome] at hnone
      exact pageAddr_ne hp0 haddr (congrArg Prod.fst (Option.some.inj hnone))
    rw [show allocFrame s = some (pageAddr p, s₂) from hsome] at halloc hsome'
    cases halloc
    obtain rfl : s₁ = s₃ := congrArg Prod.snd (Option.some.inj hsome')
    rw [if_neg (pageAddr_ne hp0 haddr)] at hrun
    obtain ⟨b, s₄, hmapped, hrun⟩ := bind_some.mp hrun
    obtain ⟨htrue, hfalse⟩ := hmoved.spaces.map_count hmap hat hroot (pageAddr p).toNat_lt hflags hmapped
    cases b with
    | true =>
        cases hrun
        exact ⟨fun hx => absurd hx hv, fun _ => by omega⟩
    | false =>
        have hfew := hfalse rfl
        obtain ⟨⟨⟩, s₅, -, hrun⟩ := bind_some.mp hrun
        cases hrun
        exact ⟨fun _ => by omega, fun hne => absurd rfl hne⟩

variable {T : Nat → Nat → Option Nat} {p : Nat}

/-- A copy to a page that is in use takes no page. -/
theorem Moved.copyTo_count (h : Moved memmap kroot roots T s s') (hcr3 : AnyRoot kroot roots cr3) (hp : p ∈ s.freePages)
    (hapart : Apart kroot roots s' p) (hT : T kroot (vmmScratchVa / pageSize) = some p) (o : Nat) (bytes : List UInt8)
    (hlen : o + bytes.length ≤ pageSize) :
    ∃ s'', memcpyTo cr3 (vmmScratchVa + o) bytes s' = some ((), s'') ∧ Moved memmap kroot roots T s s'' ∧
      Apart kroot roots s'' p ∧ s''.freePages = s'.freePages := by
  obtain ⟨s'', hrun, hm, ha, hmem⟩ := h.copyTo hcr3 hp hapart hT bytes hlen
  refine ⟨s'', hrun, hm, ha, ?_⟩
  have hsame : s'' = { s' with mem := s''.mem } := by
    rw [memcpyTo] at hrun
    obtain ⟨mem, -, hs''⟩ := Option.map_eq_some_iff.mp hrun
    cases hs''
    rfl
  rw [hsame]
  refine (h.spaces.trees.sound.write fun a ha => ?_).2
  rw [hmem]
  refine splice_out _ _ ?_
  by_contra hin
  exact ha (hapart.outside.off ⟨by omega, by omega⟩)

/-- `map_user_page` takes seven pages at most, and fails with fewer only. -/
theorem Spaces.mapUserPage_count (hmap : GoodMap memmap) (h : Spaces memmap kroot roots s)
    (hkernel : kernel.pml4 = kroot * pageSize) (hcr3 : AnyRoot kroot roots cr3) (hr : roots r) (hv : v < 2 ^ 47)
    (hroot : space.pml4 = r * pageSize) {src : List UInt8} (hlen : src.length ≤ pageSize)
    {b : Bool} (hrun : Mem.mapUserPage kernel space cr3 v src s = some (b, s')) :
    s.freePages.card ≤ s'.freePages.card + 7 ∧ (b = false → s.freePages.card ≤ 6) ∧ (b = true → WindowReady kroot s') := by
  rw [Mem.mapUserPage] at hrun
  obtain ⟨kptr, s₁, halloc, hrun⟩ := bind_some.mp hrun
  obtain ⟨hzero, hone⟩ := h.allocPage_count hmap (.inl ⟨rfl, rfl⟩) hkernel (show vmmKernelPage < pageSize by decide)
    (by decide) halloc
  by_cases hkptr : kptr = 0
  · have := hzero hkptr
    rw [if_pos hkptr] at hrun
    cases hrun
    exact ⟨by omega, fun _ => by omega, fun hb => by cases hb⟩
  rw [if_neg hkptr] at hrun
  have hcount₁ := hone hkptr
  rcases h.allocPage hmap (.inl ⟨rfl, rfl⟩) hkernel vmmKernelPage (by decide) with
    ⟨t, hnone, -⟩ | ⟨p, t, hsome, hp, ha₁, hm₁⟩
  · rw [halloc] at hnone
    exact absurd (congrArg Prod.fst (Option.some.inj hnone)) hkptr
  rw [halloc] at hsome
  cases hsome
  have hhere : remapped s kroot (vmmScratchVa / pageSize) (some p) kroot (vmmScratchVa / pageSize) = some p := if_pos ⟨rfl, rfl⟩
  obtain ⟨s₂, hcopy, hm₂, ha₂, hfree₂⟩ := hm₁.copyTo_count hcr3 hp ha₁ hhere 0 src (by omega)
  obtain ⟨s₃, hfill, hm₃, ha₃, hfree₃⟩ := hm₂.copyTo_count hcr3 hp ha₂ hhere src.length
    (List.replicate (pageSize - src.length) 0) (by rw [List.length_replicate]; omega)
  have hphys := scratch_physical hkernel ((hm₃.trans (.inl ⟨rfl, rfl⟩)).trans hhere)
  obtain ⟨s₄, hunmap, hm₄⟩ := hm₃.spaces.unmap hmap (.inl ⟨rfl, rfl⟩) hkernel
  have hcount₄ := hm₃.spaces.unmap_count (.inl ⟨rfl, rfl⟩) hkernel hunmap
  rw [Nat.add_zero] at hcopy
  rw [bind_run, hcopy, Option.bind_some, bind_run, hfill, Option.bind_some, bind_run, hphys, Option.bind_some, bind_run,
    hunmap, Option.bind_some] at hrun
  have hsmall : p * pageSize < 2 ^ 64 := by
    have := hm₃.small ha₃
    simp only [pageSize]
    omega
  obtain ⟨hcount₅, hfew⟩ := hm₄.spaces.map_count hmap (.inr ⟨hr, hv⟩) hroot hsmall (show vmmUserPage < pageSize by decide) hrun
  rw [hfree₂] at hfree₃
  rw [hfree₃] at hcount₄
  have htable : WindowReady kroot s₃ := windowReady_of_translate <| by
    rw [scratchPage, hm₃.trans (.inl ⟨rfl, rfl⟩), hhere]
    exact Option.some_ne_none p
  have htable := hm₃.spaces.unmap_ready (.inl ⟨rfl, rfl⟩) hkernel hunmap htable
  refine ⟨by omega, fun hb => ?_, fun _ => hm₄.spaces.map_ready hmap (.inr ⟨hr, hv⟩) hroot hsmall (by decide) hrun htable⟩
  have := hfew hb
  omega

/-- **A heap that is to grow by more pages than are free** runs out of memory half way. -/
theorem runsShort_of_few {pcb : UserHeap} {lo hi n q : Nat} (hmap : GoodMap memmap) (hkernel : kernel.pml4 = kroot * pageSize)
    (hcr3 : AnyRoot kroot roots cr3) (hr : roots r) (hspace : space.pml4 = r * pageSize) (hpcb : pcb.addressSpace = some space)
    (hhi : hi ≤ 2 ^ 35) (h : Untouched memmap kroot roots r lo hi s s) (hq : q + n ≤ 2 ^ 35) (hroom : 6 < s.freePages.card)
    (hfew : s.freePages.card < n) : (heapPager kernel cr3 pcb).RunsShort n q s := by
  have hlaw : (heapPager kernel cr3 pcb).Lawful (Untouched memmap kroot roots r lo hi s) (fun s => translate s r) (· < 2 ^ 35) :=
    pagerLawful_own hmap hkernel hcr3 hr hspace hpcb hhi
  have hput : ∀ {p t}, (heapPager kernel cr3 pcb).put p t = Mem.mapUserPage kernel space cr3 (p * pageSize) [] t := by
    intro p t
    simp only [heapPager, growPage, hpcb]
  have hva : ∀ {p}, p < 2 ^ 35 → p * pageSize < 2 ^ 47 := fun hp => by
    simp only [pageSize]
    omega
  refine ⟨hlaw.exhausts (μ := fun t => t.freePages.card) (fun {p t t'} hp hI hrun => ?_) (fun x _ hx => by omega) h hfew, ?_⟩
  · rw [hput] at hrun
    rcases hI.moved.spaces.mapUserPage hmap hkernel hcr3 hr (hva hp) hspace (show ([] : List UInt8).length ≤ pageSize from Nat.zero_le _) with
      ⟨u, hrun', -, -⟩ | ⟨f, u, hrun', hm, hf, hapart, -, -⟩
    · rw [hrun] at hrun'
      cases hrun'
    · rw [hrun] at hrun'
      cases hrun'
      exact Finset.card_lt_card ((Finset.ssubset_iff_of_subset hm.free).mpr ⟨f, hf, hapart.used⟩)
  · have hfirst : q < 2 ^ 35 := by omega
    rcases hlaw.put hfirst h with ⟨t, hrun, -, -⟩ | ⟨f, t, hrun, -, -⟩
    · rw [hput] at hrun
      have := (h.moved.spaces.mapUserPage_count hmap hkernel hcr3 hr (hva hfirst) hspace (Nat.zero_le _) hrun).2.1 rfl
      omega
    · exact ⟨t, hrun⟩

end Count

end Blackmount.Mem
