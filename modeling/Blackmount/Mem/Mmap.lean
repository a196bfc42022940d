import Blackmount.Mem.BreakRuns

/-!
# Mem — memory by length

`sys_mmap` moves the break by its length, rounded up to pages.  The sum wraps, and the rounded length is read as a
signed increment.

* `sysMmap_moves`: everything a call can do.
* `FreshMemory`: what a call that returns no error promises.
* `mmap_fresh_iff`: it does so exactly when the length is not rounded to nothing, nor to an increment that takes memory
  back, and no page is lost that the break lies in.
-/

namespace Blackmount.Mem
open Blackmount.Lib

/-! ### The promise -/

/-- The last page of numbers is for errors. -/
def IsError (r : UInt64) : Prop := 2 ^ 64 - 4096 < r.toNat

instance (r : UInt64) : Decidable (IsError r) := inferInstanceAs (Decidable (_ < _))

section Promise

variable (kernel : AddressSpace) (cr3 : Nat)

/-- The region of `length` bytes at `r` is memory that the process did not have before, and has now. -/
structure FreshMemory (length r : UInt64) (pcb : UserHeap) (s : Pmm) (pcb' : UserHeap) (s' : Pmm) : Prop where
  fresh : pcb.heapEnd ≤ r
  within : pcb'.heapStart ≤ r ∧ r.toNat + length.toNat ≤ pcb'.heapEnd.toNat
  mapped : ∀ page, r.toNat < (page + 1) * pageSize → page * pageSize < r.toNat + length.toNat →
    (heapFrame kernel pcb' s' page).isSome
  kept : ∀ page, pcb.heapStart.toNat < (page + 1) * pageSize → page * pageSize < pcb.heapEnd.toNat →
    (heapFrame kernel pcb s page).isSome → (heapFrame kernel pcb' s' page).isSome

/-- What `sys_mmap` promises to a process. -/
def MmapFresh (length : UInt64) (pcb : UserHeap) (s : Pmm) : Prop :=
  ∀ r proc s', sysMmap kernel cr3 (some pcb) length s = some ((r, proc), s') → ¬ IsError r →
    ∃ pcb', proc = some pcb' ∧ FreshMemory kernel length r pcb s pcb' s'

/-- The rounded length, read as a signed number, is an increment that takes memory back. -/
def TakesBack (pcb : UserHeap) (length : UInt64) : Prop :=
  2 ^ 63 ≤ (pageUp length).toNat ∧ 2 ^ 64 - (pageUp length).toNat ≤ pcb.heapEnd.toNat - pcb.heapStart.toNat

instance (pcb : UserHeap) (length : UInt64) : Decidable (TakesBack pcb length) := inferInstanceAs (Decidable (_ ∧ _))

/-- The break lies inside a page that is not mapped, and there is memory for the pages after it. -/
def PageLost (pcb : UserHeap) (length : UInt64) (s : Pmm) : Prop :=
  pcb.heapEnd.toNat % pageSize ≠ 0 ∧ (heapFrame kernel pcb s (pcb.heapEnd.toNat / pageSize)).isNone ∧
    (pageUp length).toNat < 2 ^ 63 ∧ pcb.heapEnd + pageUp length ≤ brkLimit pcb ∧
    ∃ s', (heapPager kernel cr3 pcb).putFrom (growth pcb (pcb.heapEnd + pageUp length)) (pageAbove pcb.heapEnd) s =
      some (true, s')

/-- How processes are laid out. -/
structure MmapLayout (pcb : UserHeap) : Prop where
  start : pcb.heapStart ≤ pcb.heapEnd
  limit : pcb.heapEnd ≤ brkLimit pcb
  user : (brkLimit pcb).toNat ≤ 2 ^ 47
  /-- No heap is in the first page; a task of the kernel has none. -/
  low : pcb.heapEnd = 0 ∨ pageSize ≤ pcb.heapStart.toNat

variable (memmap : List MemmapEntry)

/-- The tables in which the heap of the process is mapped are in order: its own, or the kernel's. -/
def HeapTables (pcb : UserHeap) (s : Pmm) : Prop :=
  match pcb.addressSpace with
  | some space => space.pml4 = space.root * pageSize ∧
      ∃ roots : Nat → Prop, AnyRoot kernel.root roots cr3 ∧ roots space.root ∧ Spaces memmap kernel.root roots s
  | none => LowerTables memmap kernel.root s

end Promise

/-! ### One page, in either kind of space -/

/-- The pages a heap can have: in the kernel's space the one at 0 cannot be mapped. -/
def HeapPage (pcb : UserHeap) (page : Nat) : Prop := (pcb.addressSpace = none → page ≠ 0) ∧ page < 2 ^ 35

section Pages

variable {memmap : List MemmapEntry} {kernel : AddressSpace} {cr3 : Nat} {pcb pcb' : UserHeap} {s s' : Pmm} {length : UInt64}

theorem HeapTables.lawful (hmap : GoodMap memmap) (hkernel : kernel.pml4 = kernel.root * pageSize)
    (h : HeapTables kernel cr3 memmap pcb s) :
    ∃ Inv, (heapPager kernel cr3 pcb).Lawful Inv (fun s => translate s (pcbSpace kernel pcb).root) (HeapPage pcb) ∧ Inv s := by
  rw [HeapTables] at h
  cases hpcb : pcb.addressSpace with
  | none =>
      rw [hpcb] at h
      have hspace : pcbSpace kernel pcb = kernel := by rw [pcbSpace, hpcb, Option.getD_none]
      rw [hspace]
      exact ⟨_, (pagerLawful_kernel hmap hkernel hpcb).restrict fun q hq => ⟨hq.1 hpcb, hq.2⟩, h⟩
  | some space =>
      rw [hpcb] at h
      obtain ⟨hroot, roots, hcr3, hr, hspaces⟩ := h
      have hspace : pcbSpace kernel pcb = space := by rw [pcbSpace, hpcb, Option.getD_some]
      have hlaw : (heapPager kernel cr3 pcb).Lawful (Untouched memmap kernel.root roots space.root 0 0 s)
          (fun s => translate s space.root) (· < 2 ^ 35) :=
        pagerLawful_own hmap hkernel hcr3 hr hroot hpcb (Nat.zero_le _)
      rw [hspace]
      exact ⟨_, hlaw.restrict fun q hq => hq.2, .refl hspaces, fun _ hhi => absurd hhi (Nat.not_lt_zero _)⟩

theorem MmapLayout.rounds (h : MmapLayout pcb) : Rounds pcb := by
  have huser := h.user
  have hle := UInt64.le_iff_toNat_le.mp h.limit
  rw [Rounds]
  omega

theorem MmapLayout.not_error (h : MmapLayout pcb) : ¬ IsError pcb.heapEnd := by
  have huser := h.user
  have hle := UInt64.le_iff_toNat_le.mp h.limit
  rw [IsError]
  omega

theorem MmapLayout.end_lt (h : MmapLayout pcb) : pcb.heapEnd.toNat ≤ 2 ^ 47 :=
  Nat.le_trans (UInt64.le_iff_toNat_le.mp h.limit) h.user

/-! ### The increment -/

theorem signed_pos {x : UInt64} : 0 < x.toInt64 ↔ 0 < x.toNat ∧ x.toNat < 2 ^ 63 := by
  have hlt := x.toNat_lt
  have hnat : x.toBitVec.toNat = x.toNat := rfl
  rw [Int64.lt_iff_toInt_lt, Int64.toInt_zero, ← Int64.toInt_toBitVec, UInt64.toBitVec_toInt64, BitVec.toInt_eq_toNat_cond,
    hnat]
  split <;> omega

theorem toInt64_eq_zero {x : UInt64} : x.toInt64 = 0 ↔ x = 0 :=
  ⟨fun h => by rw [← UInt64.toUInt64_toInt64 x, h]; rfl, fun h => by rw [h]; rfl⟩

/-- A length up to half the numbers grows the heap. -/
theorem sbrkTarget_up (h : MmapLayout pcb) {x : UInt64} (hpos : 0 < x.toNat) (hsmall : x.toNat < 2 ^ 63) :
    sbrkTarget pcb x.toInt64 = some (pcb.heapEnd + x) ∧ (pcb.heapEnd + x).toNat = pcb.heapEnd.toNat + x.toNat := by
  have hend := h.end_lt
  have hadd : (pcb.heapEnd + x).toNat = pcb.heapEnd.toNat + x.toNat := by
    rw [UInt64.toNat_add]
    omega
  refine ⟨?_, hadd⟩
  rw [sbrkTarget, if_pos (signed_pos.mpr ⟨hpos, hsmall⟩), UInt64.toUInt64_toInt64]
  exact if_neg fun hlt => by
    have := UInt64.lt_iff_toNat_lt.mp hlt
    omega

/-- A longer one shrinks it, or is refused. -/
theorem sbrkTarget_down (h : MmapLayout pcb) (hbig : 2 ^ 63 ≤ (pageUp length).toNat) :
    (TakesBack pcb length → ∃ newBrk, sbrkTarget pcb (pageUp length).toInt64 = some newBrk ∧ pcb.heapStart ≤ newBrk ∧
        newBrk < pcb.heapEnd) ∧
      (¬ TakesBack pcb length → sbrkTarget pcb (pageUp length).toInt64 = none) := by
  have hlt := (pageUp length).toNat_lt
  have hstart := UInt64.le_iff_toNat_le.mp h.start
  have hdec : (-(pageUp length).toInt64).toUInt64.toNat = 2 ^ 64 - (pageUp length).toNat := by
    have hsize : UInt64.size = 2 ^ 64 := rfl
    rw [← UInt64.toInt64_neg, UInt64.toUInt64_toInt64, UInt64.toNat_neg, hsize]
    omega
  have hsize : (pcb.heapEnd - pcb.heapStart).toNat = pcb.heapEnd.toNat - pcb.heapStart.toNat :=
    UInt64.toNat_sub_of_le _ _ h.start
  have hneg : ¬ 0 < (pageUp length).toInt64 := fun hpos => by
    have := signed_pos.mp hpos
    omega
  constructor
  · intro hback
    have hroom := hback.2
    have hle : (-(pageUp length).toInt64).toUInt64 ≤ pcb.heapEnd := by
      rw [UInt64.le_iff_toNat_le, hdec]
      omega
    have hnew : (pcb.heapEnd - (-(pageUp length).toInt64).toUInt64).toNat =
        pcb.heapEnd.toNat - (2 ^ 64 - (pageUp length).toNat) := by
      rw [UInt64.toNat_sub_of_le _ _ hle, hdec]
    refine ⟨pcb.heapEnd - (-(pageUp length).toInt64).toUInt64, ?_, ?_, ?_⟩
    · rw [sbrkTarget, if_neg hneg]
      exact if_neg fun hgt => by
        have := UInt64.lt_iff_toNat_lt.mp hgt
        omega
    · rw [UInt64.le_iff_toNat_le, hnew]
      omega
    · rw [UInt64.lt_iff_toNat_lt, hnew]
      omega
  · intro hback
    rw [sbrkTarget, if_neg hneg]
    refine if_pos (UInt64.lt_iff_toNat_lt.mpr ?_)
    rw [hsize, hdec]
    by_contra hge
    exact hback ⟨hbig, Nat.le_of_not_lt hge⟩

/-! ### What a call does -/

/-- **`sys_mmap`** without an error: nothing was asked of `proc_sbrk`, or the break was moved. -/
theorem sysMmap_moves (h : MmapLayout pcb) {r : UInt64} {proc : Option UserHeap}
    (hrun : sysMmap kernel cr3 (some pcb) length s = some ((r, proc), s')) (hok : ¬ IsError r) :
    length ≠ 0 ∧ r = pcb.heapEnd ∧ ∃ pcb', proc = some pcb' ∧
      ((pageUp length = 0 ∧ pcb' = pcb ∧ s' = s) ∨
        ∃ newBrk r₁, sbrkTarget pcb (pageUp length).toInt64 = some newBrk ∧ r₁ ≠ -1 ∧
          BrkMoves kernel cr3 pcb s newBrk r₁ pcb' s') := by
  rw [sysMmap] at hrun
  split at hrun
  · cases hrun
    exact absurd (by decide) hok
  next hne =>
  rw [procBrk, if_pos rfl, pure_bind] at hrun
  simp only at hrun
  split at hrun
  · cases hrun
    exact absurd (by decide) hok
  obtain ⟨⟨r₁, proc₁⟩, s₁, hsbrk, hrest⟩ := bind_some.mp hrun
  dsimp only at hrest
  split at hrest
  · cases hrest
    exact absurd (by decide) hok
  next hr₁ =>
  cases hrest
  rcases procSbrk_moves h.rounds hsbrk with ⟨hzero, rfl, rfl, rfl⟩ | ⟨-, -, rfl, -, -⟩ |
    ⟨newBrk, r₂, pcb', -, htarget, rfl, hmoves, rfl⟩
  · exact ⟨hne, UInt64.toUInt64_toInt64 _, pcb, rfl, .inl ⟨toInt64_eq_zero.mp hzero, rfl, rfl⟩⟩
  · exact absurd rfl hr₁
  · by_cases hr₂ : r₂ = -1
    · rw [if_pos hr₂] at hr₁
      exact absurd rfl hr₁
    · rw [if_neg hr₂, UInt64.toUInt64_toInt64]
      exact ⟨hne, rfl, pcb', rfl, .inr ⟨newBrk, r₂, htarget, hr₂, hmoves⟩⟩

theorem MmapLayout.ne_minus (h : MmapLayout pcb) : pcb.heapEnd ≠ -1 := fun he => h.not_error (by rw [he]; decide)

/-- `proc_sbrk` returns the break that `proc_brk` returns. -/
theorem procSbrk_run (h : MmapLayout pcb) {x newBrk : UInt64} (hne : x ≠ 0) (htarget : sbrkTarget pcb x.toInt64 = some newBrk)
    {proc : Option UserHeap} (hbrk : procBrk kernel cr3 (some pcb) newBrk s = some ((pcb.heapEnd, proc), s')) :
    procSbrk kernel cr3 (some pcb) x.toInt64 s = some ((pcb.heapEnd.toInt64, proc), s') := by
  rw [procSbrk, if_neg fun h0 => hne (toInt64_eq_zero.mp h0), htarget]
  simp only
  rw [bind_run, hbrk, Option.bind_some]
  simp only
  rw [if_neg h.ne_minus]
  rfl

/-- `sys_mmap` returns the break that `proc_sbrk` returns. -/
theorem sysMmap_run (h : MmapLayout pcb) (hne : length ≠ 0) {proc : Option UserHeap}
    (hrun : procSbrk kernel cr3 (some pcb) (pageUp length).toInt64 s = some ((pcb.heapEnd.toInt64, proc), s')) :
    sysMmap kernel cr3 (some pcb) length s = some ((pcb.heapEnd, proc), s') := by
  have hminus := h.ne_minus
  rw [sysMmap, if_neg hne, procBrk, if_pos rfl, pure_bind]
  simp only
  rw [if_neg hminus, bind_run, hrun, Option.bind_some]
  simp only [UInt64.toUInt64_toInt64]
  rw [if_neg hminus]
  rfl

/-- A length that is rounded to nothing: the break is returned, and nothing is done. -/
theorem sysMmap_nothing (h : MmapLayout pcb) (hne : length ≠ 0) (hzero : pageUp length = 0) :
    sysMmap kernel cr3 (some pcb) length s = some ((pcb.heapEnd, some pcb), s) := by
  refine sysMmap_run h hne ?_
  rw [hzero, procSbrk, if_pos (toInt64_eq_zero.mpr rfl)]
  rfl

/-- A length that takes memory back: the break is returned, and it is lower afterwards, or was not moved. -/
theorem sysMmap_back (hmap : GoodMap memmap) (hkernel : kernel.pml4 = kernel.root * pageSize) (h : MmapLayout pcb)
    (ht : HeapTables kernel cr3 memmap pcb s) (hback : TakesBack pcb length) :
    ∃ pcb' s', sysMmap kernel cr3 (some pcb) length s = some ((pcb.heapEnd, some pcb'), s') ∧
      pcb'.heapEnd ≤ pcb.heapEnd := by
  obtain ⟨newBrk, htarget, hlo, hlt⟩ := (sbrkTarget_down h hback.1).1 hback
  have hend := h.end_lt
  have hne : length ≠ 0 := by
    rintro rfl
    exact absurd hback.1 (by decide)
  have hne0 : pageUp length ≠ 0 := fun hz => by
    have hbig := hback.1
    rw [hz] at hbig
    exact absurd hbig (by decide)
  by_cases hzero : newBrk = 0
  · refine ⟨pcb, s, sysMmap_run h hne (procSbrk_run h hne0 htarget ?_), UInt64.le_refl _⟩
    rw [procBrk, if_pos hzero]
    rfl
  · obtain ⟨Inv, hlaw, hI⟩ := ht.lawful hmap hkernel
    have hpos : 0 < newBrk.toNat := Nat.pos_of_ne_zero fun e => hzero (UInt64.toNat_inj.mp e)
    obtain ⟨s', hrun, -, -⟩ := hlaw.dropFrom (n := pageAbove pcb.heapEnd - pageAbove newBrk) (p := pageAbove newBrk)
      (fun q h₁ h₂ => by
        simp only [pageAbove, pageSize] at h₁ h₂
        exact ⟨fun _ => by omega, by omega⟩) hI
    have hlimit := UInt64.le_trans (UInt64.le_of_lt hlt) h.limit
    exact ⟨_, s', sysMmap_run h hne (procSbrk_run h hne0 htarget (procBrk_shrunk h.rounds hzero ⟨hlo, hlimit⟩ hlt hrun)), UInt64.le_of_lt hlt⟩

theorem length_le_pageUp (hne : pageUp length ≠ 0) : length.toNat ≤ (pageUp length).toNat := by
  by_cases hwraps : length.toNat + 4095 < 2 ^ 64
  · rw [pageUp_toNat hwraps, pageAbove, pageSize]
    omega
  · exact absurd (pageUp_wraps (Nat.le_of_not_lt hwraps)) hne

/-- **A growth that is granted** is fresh memory, unless the page the break lies in is missing. -/
theorem grown_fresh (hmap : GoodMap memmap) (hkernel : kernel.pml4 = kernel.root * pageSize) (h : MmapLayout pcb)
    (ht : HeapTables kernel cr3 memmap pcb s) (hpos : 0 < (pageUp length).toNat) (hne : length ≠ 0)
    (hsmall : (pageUp length).toNat < 2 ^ 63) (hlimit : pcb.heapEnd + pageUp length ≤ brkLimit pcb)
    (hrun : (heapPager kernel cr3 pcb).putFrom (growth pcb (pcb.heapEnd + pageUp length)) (pageAbove pcb.heapEnd) s =
      some (true, s')) :
    FreshMemory kernel length pcb.heapEnd pcb s { pcb with heapEnd := pcb.heapEnd + pageUp length } s' ↔
      ¬ (pcb.heapEnd.toNat % pageSize ≠ 0 ∧ (heapFrame kernel pcb s (pcb.heapEnd.toNat / pageSize)).isNone) := by
  obtain ⟨Inv, hlaw, hI⟩ := ht.lawful hmap hkernel
  have hnew := (sbrkTarget_up h hpos hsmall).2
  have hend := h.end_lt
  have huser := h.user
  have hlim := UInt64.le_iff_toNat_le.mp hlimit
  have hmod := pageUp_mod length
  have hlen : length.toNat ≤ (pageUp length).toNat := length_le_pageUp fun e => by rw [e] at hpos; exact absurd hpos (by decide)
  have hlen0 : 0 < length.toNat := Nat.pos_of_ne_zero fun e => hne (UInt64.toNat_inj.mp e)
  have htop : ∀ {page}, page < pageAbove (pcb.heapEnd + pageUp length) ↔
      page * pageSize < pcb.heapEnd.toNat + (pageUp length).toNat := by
    intro page
    rw [lt_pageAbove, hnew]
  have hgrows : pageAbove pcb.heapEnd < pageAbove (pcb.heapEnd + pageUp length) := by
    rw [htop, pageAbove]
    simp only [pageSize] at hmod ⊢
    omega
  have hzero : pcb.addressSpace = none → pageAbove pcb.heapEnd ≠ 0 := by
    intro hnone h0
    obtain ⟨k, hk⟩ := Nat.exists_eq_add_of_lt (Nat.sub_pos_of_lt hgrows)
    rw [growth, hk, h0, Nat.zero_add] at hrun
    exact absurd (page_zero_denied hnone hrun) (by decide)
  rw [growth] at hrun
  obtain ⟨-, hin, hout⟩ := hlaw.granted (fun q h₁ h₂ => by
    have hq : q < pageAbove (pcb.heapEnd + pageUp length) := by omega
    have hq := htop.mp hq
    simp only [pageSize] at hq
    exact ⟨fun hnone => by have := hzero hnone; omega, by omega⟩) hI hrun
  have hkept : ∀ page, pcb.heapStart.toNat < (page + 1) * pageSize → page * pageSize < pcb.heapEnd.toNat →
      heapFrame kernel pcb s' page = heapFrame kernel pcb s page := by
    intro page h₁ h₂
    have hbelow := lt_pageAbove.mpr h₂
    refine hout page ⟨fun _ => ?_, ?_⟩ (by omega)
    · rcases h.low with h0 | hlow
      · rw [h0] at h₂
        exact absurd h₂ (Nat.not_lt_zero _)
      · rintro rfl
        omega
    · simp only [pageSize] at h₂
      omega
  have hstart := UInt64.le_iff_toNat_le.mp h.start
  constructor
  · rintro hfresh ⟨hpart, hnone⟩
    have h₁ : pcb.heapEnd.toNat < (pcb.heapEnd.toNat / pageSize + 1) * pageSize := by
      simp only [pageSize]
      omega
    have h₂ : pcb.heapEnd.toNat / pageSize * pageSize < pcb.heapEnd.toNat := by
      simp only [pageSize] at hpart ⊢
      omega
    have hmapped := hfresh.mapped _ h₁ (by omega)
    have hsame : heapFrame kernel pcb s' (pcb.heapEnd.toNat / pageSize) = heapFrame kernel pcb s (pcb.heapEnd.toNat / pageSize) :=
      hkept _ (by omega) h₂
    rw [show heapFrame kernel { pcb with heapEnd := pcb.heapEnd + pageUp length } s' (pcb.heapEnd.toNat / pageSize) =
      heapFrame kernel pcb s (pcb.heapEnd.toNat / pageSize) from hsame, Option.isSome_iff_ne_none] at hmapped
    exact hmapped (Option.isNone_iff_eq_none.mp hnone)
  · intro hlost
    refine ⟨UInt64.le_refl _, ⟨h.start, ?_⟩, fun page h₁ h₂ => ?_, fun page h₁ h₂ hsome => ?_⟩
    · simp only [hnew]
      omega
    · by_cases hbelow : page < pageAbove pcb.heapEnd
      · -- the page the break lies in
        have hbelow := lt_pageAbove.mp hbelow
        have hpage : page = pcb.heapEnd.toNat / pageSize := by
          simp only [pageSize] at h₁ hbelow ⊢
          omega
        have hpart : pcb.heapEnd.toNat % pageSize ≠ 0 := by
          simp only [pageSize] at h₁ hbelow ⊢
          omega
        have hsome : (heapFrame kernel pcb s page).isSome := by
          by_contra hno
          exact hlost ⟨hpart, by rw [← hpage]; exact Option.isNone_iff_eq_none.mpr (Option.not_isSome_iff_eq_none.mp hno)⟩
        rw [← hkept page (by omega) hbelow] at hsome
        exact hsome
      · have habove : page < pageAbove (pcb.heapEnd + pageUp length) := htop.mpr (by omega)
        exact hin page (by omega) (by omega)
    · rw [← hkept page h₁ h₂] at hsome
      exact hsome

end Pages

/-- **Memory by length is fresh memory of that length** exactly when the length is not rounded to nothing, nor to an
increment that takes memory back; and the page the break lies in is not missing. -/
theorem mmap_fresh_iff {memmap : List MemmapEntry} (hmap : GoodMap memmap) {kernel : AddressSpace} {cr3 : Nat}
    (hkernel : kernel.pml4 = kernel.root * pageSize) {pcb : UserHeap} {s : Pmm} (hlayout : MmapLayout pcb)
    (htables : HeapTables kernel cr3 memmap pcb s) (length : UInt64) :
    MmapFresh kernel cr3 length pcb s ↔
      length = 0 ∨ pageUp length ≠ 0 ∧ ¬ TakesBack pcb length ∧ ¬ PageLost kernel cr3 pcb length s := by
  by_cases hne : length = 0
  · refine ⟨fun _ => .inl hne, fun _ r proc s' hrun hok => ?_⟩
    exact absurd hne (sysMmap_moves hlayout hrun hok).1
  have hlen0 : 0 < length.toNat := Nat.pos_of_ne_zero fun e => hne (UInt64.toNat_inj.mp e)
  -- a call that returns the break and leaves it where it is, or lower, keeps no promise
  have hfails : ∀ {pcb' s'}, sysMmap kernel cr3 (some pcb) length s = some ((pcb.heapEnd, some pcb'), s') →
      pcb'.heapEnd ≤ pcb.heapEnd → ¬ MmapFresh kernel cr3 length pcb s := by
    intro pcb' s' hrun hle hfresh
    obtain ⟨pcb'', he, hf⟩ := hfresh _ _ _ hrun hlayout.not_error
    cases he
    have hwithin := hf.within.2
    have hle := UInt64.le_iff_toNat_le.mp hle
    omega
  constructor
  · intro hfresh
    refine .inr ⟨fun hzero => ?_, fun hback => ?_, fun ⟨hpart, hnone, hsmall, hlimit, s', hrun⟩ => ?_⟩
    · exact hfails (sysMmap_nothing hlayout hne hzero) (UInt64.le_refl _) hfresh
    · obtain ⟨pcb', s', hrun, hle⟩ := sysMmap_back hmap hkernel hlayout htables hback
      exact hfails hrun hle hfresh
    · by_cases hzero : pageUp length = 0
      · exact hfails (sysMmap_nothing hlayout hne hzero) (UInt64.le_refl _) hfresh
      have hpos : 0 < (pageUp length).toNat := Nat.pos_of_ne_zero fun e => hzero (UInt64.toNat_inj.mp e)
      obtain ⟨htarget, hnew⟩ := sbrkTarget_up hlayout hpos hsmall
      have hlt : pcb.heapEnd < pcb.heapEnd + pageUp length := by
        rw [UInt64.lt_iff_toNat_lt, hnew]
        omega
      have hin : pcb.heapStart ≤ pcb.heapEnd + pageUp length ∧ pcb.heapEnd + pageUp length ≤ brkLimit pcb :=
        ⟨UInt64.le_trans hlayout.start (UInt64.le_of_lt hlt), hlimit⟩
      have hmmap := sysMmap_run hlayout hne (procSbrk_run hlayout hzero htarget (procBrk_grows hlayout.rounds hin hlt hrun))
      obtain ⟨pcb', he, hf⟩ := hfresh _ _ _ hmmap hlayout.not_error
      cases he
      exact (grown_fresh hmap hkernel hlayout htables hpos hne hsmall hlimit hrun).mp hf ⟨hpart, hnone⟩
  · rintro (h0 | ⟨hzero, hback, hlost⟩) r proc s' hrun hok
    · exact absurd h0 hne
    · obtain ⟨-, rfl, pcb', rfl, ⟨hz, -, -⟩ | ⟨newBrk, r₁, htarget, hr₁, hmoves⟩⟩ := sysMmap_moves hlayout hrun hok
      · exact absurd hz hzero
      · have hpos : 0 < (pageUp length).toNat := Nat.pos_of_ne_zero fun e => hzero (UInt64.toNat_inj.mp e)
        have hsmall : (pageUp length).toNat < 2 ^ 63 := by
          by_contra hbig
          rw [(sbrkTarget_down hlayout (Nat.le_of_not_lt hbig)).2 hback] at htarget
          cases htarget
        obtain ⟨htarget', hnew⟩ := sbrkTarget_up hlayout hpos hsmall
        obtain rfl : newBrk = pcb.heapEnd + pageUp length := Option.some.inj (htarget.symm.trans htarget')
        have hlt : pcb.heapEnd < pcb.heapEnd + pageUp length := by
          rw [UInt64.lt_iff_toNat_lt, hnew]
          omega
        cases hmoves with
        | grown hin _ hput =>
            refine ⟨_, rfl, (grown_fresh hmap hkernel hlayout htables hpos hne hsmall hin.2 hput).mpr ?_⟩
            exact fun ⟨hpart, hnone⟩ => hlost ⟨hpart, hnone, hsmall, hin.2, s', hput⟩
        | asked h0 =>
            rw [h0] at hlt
            exact absurd hlt (UInt64.not_lt.mpr UInt64.zero_le)
        | refused _ _ => exact absurd rfl hr₁
        | denied _ _ _ => exact absurd rfl hr₁
        | shrunk _ _ hgt _ => exact absurd hlt (UInt64.not_lt.mpr (UInt64.le_of_lt hgt))
        | stayed heq =>
            rw [heq] at hlt
            exact absurd hlt (UInt64.lt_irrefl _)

/-! ### Lengths on fixed inputs -/

theorem freshHeap_layout : MmapLayout freshHeap := ⟨by decide, by decide, by decide, by decide⟩

theorem freshHeap_tables : HeapTables bootSpace 0x12 bootMap freshHeap ownPmm :=
  ⟨rfl, fun r => False ∨ r = 0x12, .inr (.inr rfl), .inr rfl, own_spaces⟩

/-- Two pages for an empty heap. -/
theorem mmap_fresh_two_pages : MmapFresh bootSpace 0x12 0x1001 freshHeap ownPmm :=
  (mmap_fresh_iff bootMap_good rfl freshHeap_layout freshHeap_tables 0x1001).mpr
    (.inr ⟨by decide, by decide, fun hlost => hlost.1 (by decide)⟩)

/-- **The greatest length is rounded to nothing**: the break is returned as if the memory after it were the caller's. -/
theorem mmap_not_fresh :
    MmapLayout freshHeap ∧ HeapTables bootSpace 0x12 bootMap freshHeap ownPmm ∧
      sysMmap bootSpace 0x12 (some freshHeap) (-1) ownPmm = some ((0x401000, some freshHeap), ownPmm) ∧
      ¬ MmapFresh bootSpace 0x12 (-1) freshHeap ownPmm := by
  have hrun : sysMmap bootSpace 0x12 (some freshHeap) (-1) ownPmm = some ((0x401000, some freshHeap), ownPmm) :=
    sysMmap_nothing freshHeap_layout (by decide) (by decide)
  refine ⟨freshHeap_layout, freshHeap_tables, hrun, fun hfresh => ?_⟩
  obtain ⟨pcb', he, hf⟩ := hfresh _ _ _ hrun freshHeap_layout.not_error
  cases he
  exact absurd hf.within.2 (by decide)

end Blackmount.Mem
