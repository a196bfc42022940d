import Blackmount.Mem.NewSpaces
import Blackmount.Mem.PageCount

/-!
# Mem — the break over runs

A process with a space of its own moves its break while others use the memory.

* `BreakKept`: after a step the pages of the heap are mapped and no others below the stack, a call that failed has
  changed nothing, and the bytes below both breaks are what they were.
* `brkMoves_heap`: what a call that does not run out of memory half way leaves.
* `break_exact_iff`: the steps of a run are all so exactly when none of them runs out half way.
-/

namespace Blackmount.Mem
open Blackmount.Lib

/-! ### The machine -/

/-- A process and the memory, between its calls. -/
structure BreakState where
  pcb : UserHeap
  pmm : Pmm
  /-- The last step was a call that returned -1. -/
  failed : Bool := false

inductive BreakOp where
  | brk (newBrk : UInt64)
  | sbrk (increment : Int64)
  /-- The memory as others leave it. -/
  | others (pmm : Pmm)

/-- The break that a call is for, if it is for any. -/
def BreakOp.target (pcb : UserHeap) : BreakOp → Option UInt64
  | .brk newBrk => some newBrk
  | .sbrk increment => if increment = 0 then none else sbrkTarget pcb increment
  | .others _ => none

section Machine

variable (kernel : AddressSpace) (cr3 : Nat)

def breakStep (s : BreakState) : BreakOp → Option BreakState
  | .brk newBrk => do
      let ((r, proc), pmm) ← procBrk kernel cr3 (some s.pcb) newBrk s.pmm
      return ⟨← proc, pmm, r = -1⟩
  | .sbrk increment => do
      let ((r, proc), pmm) ← procSbrk kernel cr3 (some s.pcb) increment s.pmm
      return ⟨← proc, pmm, r = -1⟩
  | .others pmm => some { pcb := s.pcb, pmm := pmm }

/-- The frame of a page of the process. -/
def heapFrame (pcb : UserHeap) (s : Pmm) (page : Nat) : Option Nat := translate s (pcbSpace kernel pcb).root page

/-- The byte at an address of the process. -/
def heapByte (pcb : UserHeap) (s : Pmm) (va : Nat) : Option UInt8 :=
  (heapFrame kernel pcb s (va / pageSize)).map fun f => s.mem (f * pageSize + va % pageSize)

/-- Between the start of the heap and the stack the pages below the break are mapped, and no others. -/
structure HeapExact (pcb : UserHeap) (s : Pmm) : Prop where
  ordered : pcb.heapStart ≤ pcb.heapEnd ∧ pcb.heapEnd ≤ pcb.stackVaddrBase
  mapped : ∀ page, pcb.heapStart.toNat ≤ page * pageSize → page * pageSize < pcb.stackVaddrBase.toNat →
    ((heapFrame kernel pcb s page).isSome ↔ page * pageSize < pcb.heapEnd.toNat)

/-- What is to hold of every step. -/
structure BreakKept (s : BreakState) (o : BreakOp) (s' : BreakState) : Prop where
  exact : HeapExact kernel s'.pcb s'.pmm
  failed : s'.failed = true → s'.pcb.heapEnd = s.pcb.heapEnd ∧
    ∀ page, page < 2 ^ 35 → heapFrame kernel s'.pcb s'.pmm page = heapFrame kernel s.pcb s.pmm page
  bytes : (∀ pmm, o ≠ .others pmm) → ∀ va, s.pcb.heapStart.toNat ≤ va →
    va < min s.pcb.heapEnd.toNat s'.pcb.heapEnd.toNat → heapByte kernel s'.pcb s'.pmm va = heapByte kernel s.pcb s.pmm va

/-- The heap is to grow, its first new page is mapped, and memory runs out at a later one. -/
def RunsOut (s : BreakState) (o : BreakOp) : Prop :=
  ∃ newBrk, o.target s.pcb = some newBrk ∧ s.pcb.heapEnd < newBrk ∧ newBrk ≤ s.pcb.stackVaddrBase ∧
    (heapPager kernel cr3 s.pcb).RunsShort (growth s.pcb newBrk) (pageAbove s.pcb.heapEnd) s.pmm

/-- How processes are laid out: the heap starts at a page, and so does the stack. -/
structure HeapLayout (pcb : UserHeap) : Prop where
  start : pcb.heapStart.toNat % pageSize = 0
  positive : 0 < pcb.heapStart.toNat
  stack : pcb.stackVaddrBase.toNat % pageSize = 0
  user : pcb.stackVaddrBase.toNat ≤ 2 ^ 47

variable (memmap : List MemmapEntry) (space : AddressSpace)

/-- The tables of the process and of the kernel are in order, and the pages of its heap lie in frames that are no tables
and are not free. -/
def OwnTables (pcb : UserHeap) (s : Pmm) : Prop :=
  ∃ roots : Nat → Prop, AnyRoot kernel.root roots cr3 ∧ roots space.root ∧ Spaces memmap kernel.root roots s ∧
    ∀ page f, pcb.heapStart.toNat ≤ page * pageSize → page * pageSize < pcb.stackVaddrBase.toNat →
      translate s space.root page = some f → Apart kernel.root roots s f

/-- Others leave the tables in order and the pages of the heap where they are. -/
def OthersApart (s : BreakState) : BreakOp → Prop
  | .others pmm => OwnTables kernel cr3 memmap space s.pcb pmm ∧ ∀ page, s.pcb.heapStart.toNat ≤ page * pageSize →
      page * pageSize < s.pcb.stackVaddrBase.toNat → translate pmm space.root page = translate s.pmm space.root page
  | _ => True

/-- A process with a space of its own. -/
structure OwnHeap (pcb : UserHeap) (s : Pmm) : Prop where
  layout : HeapLayout pcb
  own : pcb.addressSpace = some space
  tables : OwnTables kernel cr3 memmap space pcb s
  exact : HeapExact kernel pcb s

end Machine

/-! ### One call -/

theorem pageAbove_le {x y : UInt64} (h : x ≤ y) : pageAbove x ≤ pageAbove y := by
  have hle := UInt64.le_iff_toNat_le.mp h
  simp only [pageAbove, pageSize]
  omega

variable {x newBrk r : UInt64}

theorem lt_pageAbove {page : Nat} : page < pageAbove x ↔ page * pageSize < x.toNat := by
  rw [pageAbove, pageSize]
  omega

section Step

variable {memmap : List MemmapEntry} {kernel space : AddressSpace} {cr3 : Nat} {s s' : BreakState} {o : BreakOp}

/-- **What a step can do.** -/
theorem breakStep_cases (h : Rounds s.pcb) (hend : s.pcb.heapEnd ≠ -1) (hs : breakStep kernel cr3 s o = some s') :
    (∃ pmm, o = .others pmm ∧ s' = { pcb := s.pcb, pmm := pmm }) ∨
      (o.target s.pcb = none ∧ s'.pcb = s.pcb ∧ s'.pmm = s.pmm) ∨
      ∃ newBrk r, o.target s.pcb = some newBrk ∧ BrkMoves kernel cr3 s.pcb s.pmm newBrk r s'.pcb s'.pmm ∧
        (s'.failed = true → r = -1) := by
  cases o with
  | brk newBrk =>
      obtain ⟨⟨⟨r, proc⟩, pmm⟩, hrun, hrest⟩ := Option.bind_eq_some_iff.mp hs
      obtain ⟨pcb', rfl, hmoves⟩ := procBrk_moves h hrun
      cases hrest
      exact .inr (.inr ⟨newBrk, r, rfl, hmoves, fun hf => of_decide_eq_true hf⟩)
  | sbrk increment =>
      obtain ⟨⟨⟨r, proc⟩, pmm⟩, hrun, hrest⟩ := Option.bind_eq_some_iff.mp hs
      rcases procSbrk_moves h hrun with ⟨hzero, rfl, rfl, rfl⟩ | ⟨hne, hnone, rfl, rfl, rfl⟩ |
        ⟨newBrk, r₁, pcb', hne, htarget, rfl, hmoves, hr⟩
      · cases hrest
        exact .inr (.inl ⟨if_pos hzero, rfl, rfl⟩)
      · cases hrest
        exact .inr (.inl ⟨(if_neg hne).trans hnone, rfl, rfl⟩)
      · cases hrest
        refine .inr (.inr ⟨newBrk, r₁, (if_neg hne).trans htarget, hmoves, fun hf => ?_⟩)
        by_contra hr₁
        rw [if_neg hr₁] at hr
        have hminus : s.pcb.heapEnd.toInt64 = -1 := hr.symm.trans (of_decide_eq_true hf)
        exact hend (by rw [← UInt64.toUInt64_toInt64 s.pcb.heapEnd, hminus]; rfl)
  | others pmm =>
      cases hs
      exact .inl ⟨pmm, rfl, rfl⟩

end Step

section Heap

variable {memmap : List MemmapEntry} {kernel space : AddressSpace} {cr3 : Nat} {pcb pcb' : UserHeap} {pmm pmm' : Pmm}

def firstPage (pcb : UserHeap) : Nat := pcb.heapStart.toNat / pageSize
def stackPage (pcb : UserHeap) : Nat := pcb.stackVaddrBase.toNat / pageSize

theorem HeapLayout.range (h : HeapLayout pcb) {page : Nat} : pcb.heapStart.toNat ≤ page * pageSize ∧
    page * pageSize < pcb.stackVaddrBase.toNat ↔ firstPage pcb ≤ page ∧ page < stackPage pcb := by
  have hstart := h.start
  have hstack := h.stack
  simp only [firstPage, stackPage, pageSize] at hstart hstack ⊢
  omega

theorem HeapLayout.stackPage_le (h : HeapLayout pcb) : stackPage pcb ≤ 2 ^ 35 := by
  have huser := h.user
  simp only [stackPage, pageSize]
  omega

/-- Pages above breaks below the stack are below the stack. -/
theorem HeapLayout.pageAbove_le (h : HeapLayout pcb) (hx : x ≤ pcb.stackVaddrBase) :
    pageAbove x ≤ stackPage pcb := by
  have hstack := h.stack
  have hle := UInt64.le_iff_toNat_le.mp hx
  simp only [pageAbove, stackPage, pageSize] at hstack ⊢
  omega

theorem HeapLayout.valid (h : HeapLayout pcb) {q : Nat} (hx : x ≤ pcb.stackVaddrBase) (hq : q < pageAbove x) :
    q < 2 ^ 35 :=
  Nat.lt_of_lt_of_le hq (Nat.le_trans (h.pageAbove_le hx) h.stackPage_le)

/-- The page of an address of the heap below `x`. -/
theorem HeapLayout.page (h : HeapLayout pcb) {va : Nat} (h₁ : pcb.heapStart.toNat ≤ va) (h₂ : va < x.toNat)
    (hx : x ≤ pcb.stackVaddrBase) :
    firstPage pcb ≤ va / pageSize ∧ va / pageSize < stackPage pcb ∧ va / pageSize < pageAbove x := by
  have habove := h.pageAbove_le hx
  have hin : va / pageSize < pageAbove x := lt_pageAbove.mpr (Nat.lt_of_le_of_lt (Nat.div_mul_le_self _ _) h₂)
  exact ⟨Nat.div_le_div_right h₁, by omega, hin⟩

theorem HeapLayout.limit (h : HeapLayout pcb) (hle : pcb.heapStart ≤ pcb.stackVaddrBase) :
    brkLimit pcb = pcb.stackVaddrBase := by
  refine if_pos fun hzero => ?_
  have hpos := h.positive
  have hle := UInt64.le_iff_toNat_le.mp hle
  rw [hzero, UInt64.toNat_zero] at hle
  omega

theorem OwnHeap.limit (h : OwnHeap kernel cr3 memmap space pcb pmm) : brkLimit pcb = pcb.stackVaddrBase :=
  h.layout.limit (UInt64.le_trans h.exact.ordered.1 h.exact.ordered.2)

theorem OwnHeap.rounds (h : OwnHeap kernel cr3 memmap space pcb pmm) : Rounds pcb := by
  have huser := h.layout.user
  have hle := UInt64.le_iff_toNat_le.mp h.exact.ordered.2
  rw [Rounds, h.limit]
  omega

theorem OwnHeap.ne_minus (h : OwnHeap kernel cr3 memmap space pcb pmm) : pcb.heapEnd ≠ -1 := by
  intro hminus
  have huser := h.layout.user
  have hle := UInt64.le_iff_toNat_le.mp h.exact.ordered.2
  have h64 : (-1 : UInt64).toNat = 2 ^ 64 - 1 := by decide
  rw [hminus, h64] at hle
  omega

theorem OwnHeap.space_eq (h : OwnHeap kernel cr3 memmap space pcb pmm) (e : UInt64) :
    pcbSpace kernel { pcb with heapEnd := e } = space := by
  simp only [pcbSpace, h.own, Option.getD_some]

theorem OwnHeap.mapped (h : OwnHeap kernel cr3 memmap space pcb pmm) {page : Nat} (hlo : firstPage pcb ≤ page)
    (hhi : page < stackPage pcb) : (translate pmm space.root page).isSome ↔ page < pageAbove pcb.heapEnd := by
  obtain ⟨h₁, h₂⟩ := h.layout.range.mpr ⟨hlo, hhi⟩
  have hexact := h.exact.mapped page h₁ h₂
  have hpcb : pcbSpace kernel pcb = space := h.space_eq pcb.heapEnd
  rw [heapFrame, hpcb] at hexact
  rw [hexact, lt_pageAbove]

variable {roots : Nat → Prop}

theorem OwnHeap.untouched (h : OwnHeap kernel cr3 memmap space pcb pmm) :
    ∃ roots, AnyRoot kernel.root roots cr3 ∧ roots space.root ∧
      Untouched memmap kernel.root roots space.root (firstPage pcb) (stackPage pcb) pmm pmm := by
  obtain ⟨roots, hcr3, hroot, hspaces, hapart⟩ := h.tables
  refine ⟨roots, hcr3, hroot, .refl hspaces, fun {page f} hlo hhi hf => ?_⟩
  obtain ⟨h₁, h₂⟩ := h.layout.range.mpr ⟨hlo, hhi⟩
  exact hapart page f h₁ h₂ hf

/-- The pages of a heap after a call that moved its break to `e`. -/
theorem OwnHeap.moved (h : OwnHeap kernel cr3 memmap space pcb pmm) (hcr3 : AnyRoot kernel.root roots cr3)
    (hroot : roots space.root)
    (ht : Untouched memmap kernel.root roots space.root (firstPage pcb) (stackPage pcb) pmm pmm') {e : UInt64}
    (hin : pcb.heapStart ≤ e ∧ e ≤ pcb.stackVaddrBase)
    (hmapped : ∀ page, firstPage pcb ≤ page → page < stackPage pcb →
      ((translate pmm' space.root page).isSome ↔ page < pageAbove e)) :
    OwnHeap kernel cr3 memmap space { pcb with heapEnd := e } pmm' := by
  refine ⟨⟨h.layout.start, h.layout.positive, h.layout.stack, h.layout.user⟩, h.own,
    ⟨roots, hcr3, hroot, ht.moved.spaces, fun page f h₁ h₂ hf => ?_⟩, ⟨hin, fun page h₁ h₂ => ?_⟩⟩
  · obtain ⟨hlo, hhi⟩ := h.layout.range.mp ⟨h₁, h₂⟩
    exact ht.apart hlo hhi hf
  · obtain ⟨hlo, hhi⟩ := h.layout.range.mp ⟨h₁, h₂⟩
    simp only [heapFrame, h.space_eq]
    rw [hmapped page hlo hhi, lt_pageAbove]

/-- The bytes of pages that stay where they are. -/
theorem OwnHeap.byte (h : OwnHeap kernel cr3 memmap space pcb pmm)
    (hs : Untouched memmap kernel.root roots space.root (firstPage pcb) (stackPage pcb) pmm pmm)
    (ht : Untouched memmap kernel.root roots space.root (firstPage pcb) (stackPage pcb) pmm pmm') {e : UInt64} {va : Nat}
    (hlo : firstPage pcb ≤ va / pageSize) (hhi : va / pageSize < stackPage pcb)
    (hsame : translate pmm' space.root (va / pageSize) = translate pmm space.root (va / pageSize)) :
    heapByte kernel { pcb with heapEnd := e } pmm' va = heapByte kernel pcb pmm va := by
  simp only [heapByte, heapFrame, h.space_eq, hsame]
  cases hf : translate pmm space.root (va / pageSize) with
  | none => rfl
  | some f =>
      have hoff : va % pageSize < pageSize := Nat.mod_lt _ (by decide)
      exact congrArg some (ht.moved.bytes (hs.apart hlo hhi hf) ⟨Nat.le_add_right _ _, Nat.add_lt_add_left hoff _⟩)

/-- What a call leaves: the heap in order; all as it was, if it failed; and the bytes below both breaks. -/
structure CallKept (kernel : AddressSpace) (r : UInt64) (pcb : UserHeap) (pmm : Pmm) (pcb' : UserHeap) (pmm' : Pmm) : Prop where
  failed : r = -1 → pcb'.heapEnd = pcb.heapEnd ∧
    ∀ page, page < 2 ^ 35 → heapFrame kernel pcb' pmm' page = heapFrame kernel pcb pmm page
  bytes : ∀ va, pcb.heapStart.toNat ≤ va → va < min pcb.heapEnd.toNat pcb'.heapEnd.toNat →
    heapByte kernel pcb' pmm' va = heapByte kernel pcb pmm va

theorem CallKept.refl : CallKept kernel r pcb pmm pcb pmm :=
  ⟨fun _ => ⟨rfl, fun _ _ => rfl⟩, fun _ _ _ => rfl⟩

/-- **A call that does not run out of memory half way** leaves the heap in order. -/
theorem brkMoves_heap (hmap : GoodMap memmap) (hkernel : kernel.pml4 = kernel.root * pageSize)
    (hspace : space.pml4 = space.root * pageSize) (h : OwnHeap kernel cr3 memmap space pcb pmm)
    (hmoves : BrkMoves kernel cr3 pcb pmm newBrk r pcb' pmm')
    (hfull : ¬ (pcb.heapEnd < newBrk ∧ newBrk ≤ pcb.stackVaddrBase ∧
      (heapPager kernel cr3 pcb).RunsShort (growth pcb newBrk) (pageAbove pcb.heapEnd) pmm)) :
    OwnHeap kernel cr3 memmap space pcb' pmm' ∧ CallKept kernel r pcb pmm pcb' pmm' := by
  obtain ⟨roots, hcr3, hroot, hs⟩ := h.untouched
  have hlaw : (heapPager kernel cr3 pcb).Lawful (Untouched memmap kernel.root roots space.root (firstPage pcb) _ pmm)
      (fun s => translate s space.root) (· < 2 ^ 35) :=
    pagerLawful_own hmap hkernel hcr3 hroot hspace h.own h.layout.stackPage_le
  have hpcb : pcbSpace kernel pcb = space := h.space_eq pcb.heapEnd
  cases hmoves with
  | asked _ => exact ⟨h, .refl⟩
  | refused _ _ => exact ⟨h, .refl⟩
  | stayed _ => exact ⟨h, .refl⟩
  | grown hin hlt hrun =>
      rw [h.limit] at hin
      have hends := pageAbove_le (UInt64.le_of_lt hlt)
      obtain ⟨ht, hnew, hold⟩ := hlaw.granted (fun q h₁ h₂ => h.layout.valid hin.2 (by rw [growth] at h₂; omega)) hs hrun
      refine ⟨h.moved hcr3 hroot ht hin fun page hlo hhi => ?_, fun hr => absurd hr h.ne_minus, fun va h₁ h₂ => ?_⟩
      · have hsmall : page < 2 ^ 35 := Nat.lt_of_lt_of_le hhi h.layout.stackPage_le
        rw [growth] at hnew hold
        by_cases hp : pageAbove pcb.heapEnd ≤ page ∧ page < pageAbove pcb.heapEnd + (pageAbove newBrk - pageAbove pcb.heapEnd)
        · exact ⟨fun _ => by omega, fun _ => hnew page hp.1 hp.2⟩
        · rw [hold page hsmall hp, h.mapped hlo hhi]
          omega
      · obtain ⟨hlo, hhi, hin⟩ := h.layout.page h₁ (Nat.lt_of_lt_of_le h₂ (Nat.min_le_left _ _)) h.exact.ordered.2
        exact h.byte hs ht hlo hhi (hold _ (h.layout.valid h.exact.ordered.2 hin) (by omega))
  | denied hin hlt hrun =>
      rw [h.limit] at hin
      obtain ⟨ht, hsame⟩ := hlaw.refused (fun q h₁ h₂ => h.layout.valid hin.2 (by rw [growth] at h₂; omega)) hs hrun
        fun hshort => hfull ⟨hlt, hin.2, hshort⟩
      refine ⟨h.moved hcr3 hroot ht h.exact.ordered fun page hlo hhi => ?_, fun _ => ⟨rfl, fun page hp => ?_⟩,
        fun va h₁ h₂ => ?_⟩
      · rw [hsame page (Nat.lt_of_lt_of_le hhi h.layout.stackPage_le), h.mapped hlo hhi]
      · rw [heapFrame, heapFrame, hpcb]
        exact hsame page hp
      · obtain ⟨hlo, hhi, hin⟩ := h.layout.page h₁ (Nat.lt_of_lt_of_le h₂ (Nat.min_le_left _ _)) h.exact.ordered.2
        exact h.byte hs ht hlo hhi (hsame _ (h.layout.valid h.exact.ordered.2 hin))
  | shrunk hne hin hlt hrun =>
      rw [h.limit] at hin
      have hends := pageAbove_le (UInt64.le_of_lt hlt)
      obtain ⟨s', hdrop, ht, hview⟩ := hlaw.dropFrom (p := pageAbove newBrk) (n := pageAbove pcb.heapEnd - pageAbove newBrk)
        (fun q h₁ h₂ => h.layout.valid h.exact.ordered.2 (by omega)) hs
      rw [hrun] at hdrop
      cases hdrop
      refine ⟨h.moved hcr3 hroot ht hin fun page hlo hhi => ?_, fun hr => absurd hr h.ne_minus, fun va h₁ h₂ => ?_⟩
      · rw [hview page (Nat.lt_of_lt_of_le hhi h.layout.stackPage_le)]
        split
        · next hp => exact ⟨fun hf => (by cases hf), fun hp' => absurd hp' (by omega)⟩
        · next hp =>
            rw [h.mapped hlo hhi]
            omega
      · obtain ⟨hlo, hhi, hin'⟩ := h.layout.page h₁ (Nat.lt_of_lt_of_le h₂ (Nat.min_le_right _ _)) hin.2
        have hbelow : va / pageSize < pageAbove newBrk := hin'
        refine h.byte hs ht hlo hhi ?_
        rw [hview _ (h.layout.valid hin.2 hbelow), if_neg (by omega)]

/-- **A call that runs out of memory half way** leaves a page mapped above the break. -/
theorem brkMoves_short (hmap : GoodMap memmap) (hkernel : kernel.pml4 = kernel.root * pageSize)
    (hspace : space.pml4 = space.root * pageSize) (h : OwnHeap kernel cr3 memmap space pcb pmm)
    (hmoves : BrkMoves kernel cr3 pcb pmm newBrk r pcb' pmm') (hlt : pcb.heapEnd < newBrk) (hle : newBrk ≤ pcb.stackVaddrBase)
    (hshort : (heapPager kernel cr3 pcb).RunsShort (growth pcb newBrk) (pageAbove pcb.heapEnd) pmm) :
    ¬ HeapExact kernel pcb' pmm' := by
  obtain ⟨roots, hcr3, hroot, hs⟩ := h.untouched
  have hlaw : (heapPager kernel cr3 pcb).Lawful (Untouched memmap kernel.root roots space.root (firstPage pcb) _ pmm)
      (fun s => translate s space.root) (· < 2 ^ 35) :=
    pagerLawful_own hmap hkernel hcr3 hroot hspace h.own h.layout.stackPage_le
  have hstart := UInt64.le_of_lt (UInt64.lt_of_le_of_lt h.exact.ordered.1 hlt)
  cases hmoves with
  | asked hzero =>
      rw [hzero] at hlt
      exact absurd hlt (UInt64.not_lt.mpr UInt64.zero_le)
  | refused _ hout =>
      rw [h.limit] at hout
      exact absurd hout (not_or.mpr ⟨UInt64.not_lt.mpr hstart, UInt64.not_lt.mpr hle⟩)
  | shrunk _ _ hgt _ => exact absurd hlt (UInt64.not_lt.mpr (UInt64.le_of_lt hgt))
  | stayed heq => exact absurd hlt (heq ▸ UInt64.lt_irrefl _)
  | grown _ _ hrun =>
      obtain ⟨⟨s₁, hfalse⟩, -⟩ := hshort
      rw [hrun] at hfalse
      cases hfalse
  | denied _ _ hrun =>
      intro hexact
      have hmapped := hlaw.short (fun q h₁ h₂ => h.layout.valid hle (by rw [growth] at h₂; omega)) hs hrun hshort
      have hgrows : pageAbove pcb.heapEnd < pageAbove newBrk := by
        by_contra hge
        obtain ⟨⟨s₁, hfalse⟩, -⟩ := hshort
        rw [growth, Nat.sub_eq_zero_of_le (Nat.le_of_not_lt hge)] at hfalse
        cases hfalse
      have habove := h.layout.pageAbove_le hle
      have hfirst : firstPage pcb ≤ pageAbove pcb.heapEnd := by
        have hordered := UInt64.le_iff_toNat_le.mp h.exact.ordered.1
        simp only [firstPage, pageAbove, pageSize]
        omega
      obtain ⟨h₁, h₂⟩ := h.layout.range.mpr ⟨hfirst, Nat.lt_of_lt_of_le hgrows habove⟩
      have hbelow := hexact.mapped _ h₁ h₂
      have hpcb : pcbSpace kernel pcb = space := h.space_eq pcb.heapEnd
      rw [heapFrame, hpcb, ← lt_pageAbove] at hbelow
      exact Nat.lt_irrefl _ (hbelow.mp hmapped)

/-- **One step** keeps what is to be kept exactly when it does not run out of memory half way. -/
theorem OwnHeap.step (hmap : GoodMap memmap) (hkernel : kernel.pml4 = kernel.root * pageSize)
    (hspace : space.pml4 = space.root * pageSize) {s s' : BreakState} (h : OwnHeap kernel cr3 memmap space s.pcb s.pmm)
    {o : BreakOp} (hothers : OthersApart kernel cr3 memmap space s o) (hs : breakStep kernel cr3 s o = some s') :
    (BreakKept kernel s o s' ↔ ¬ RunsOut kernel cr3 s o) ∧
      (¬ RunsOut kernel cr3 s o → OwnHeap kernel cr3 memmap space s'.pcb s'.pmm) := by
  rcases breakStep_cases h.rounds h.ne_minus hs with ⟨pmm, rfl, rfl⟩ | ⟨hnone, hpcb, hpmm⟩ | ⟨newBrk, r, htarget, hmoves, hfail⟩
  · have hexact : HeapExact kernel s.pcb pmm := by
      refine ⟨h.exact.ordered, fun page h₁ h₂ => ?_⟩
      have hpcb : pcbSpace kernel s.pcb = space := h.space_eq s.pcb.heapEnd
      have hmapped := h.exact.mapped page h₁ h₂
      rw [heapFrame, hpcb] at hmapped ⊢
      rw [hothers.2 page h₁ h₂, hmapped]
    have hno : ¬ RunsOut kernel cr3 s (.others pmm) := fun ⟨_, htarget, _⟩ => by cases htarget
    exact ⟨⟨fun _ => hno, fun _ => ⟨hexact, fun hf => (by cases hf), fun hcall => absurd rfl (hcall pmm)⟩⟩,
      fun _ => ⟨h.layout, h.own, hothers.1, hexact⟩⟩
  · have hno : ¬ RunsOut kernel cr3 s o := fun ⟨_, htarget, _⟩ => by rw [hnone] at htarget; cases htarget
    refine ⟨⟨fun _ => hno, fun _ => ?_⟩, fun _ => by rw [hpcb, hpmm]; exact h⟩
    refine ⟨by rw [hpcb, hpmm]; exact h.exact, fun _ => ?_, fun _ va _ _ => by rw [hpcb, hpmm]⟩
    rw [hpcb, hpmm]
    exact ⟨rfl, fun _ _ => rfl⟩
  · by_cases hout : RunsOut kernel cr3 s o
    · refine ⟨⟨fun hkept => ?_, fun hno => absurd hout hno⟩, fun hno => absurd hout hno⟩
      obtain ⟨newBrk', htarget', hlt, hle, hshort⟩ := hout
      obtain rfl : newBrk = newBrk' := Option.some.inj (htarget.symm.trans htarget')
      exact absurd hkept.exact (brkMoves_short hmap hkernel hspace h hmoves hlt hle hshort)
    · obtain ⟨hown, hkept⟩ := brkMoves_heap hmap hkernel hspace h hmoves
        fun ⟨hlt, hle, hshort⟩ => hout ⟨newBrk, htarget, hlt, hle, hshort⟩
      exact ⟨⟨fun _ => hout, fun _ => ⟨hown.exact, fun hf => hkept.failed (hfail hf), fun _ => hkept.bytes⟩⟩, fun _ => hown⟩

end Heap

/-- **The break describes the mapped heap exactly** after every step of a run in which no call runs out of memory half way,
and of no other run. -/
theorem break_exact_iff {memmap : List MemmapEntry} (hmap : GoodMap memmap) {kernel space : AddressSpace} {cr3 : Nat}
    (hkernel : kernel.pml4 = kernel.root * pageSize) (hspace : space.pml4 = space.root * pageSize) {s : BreakState}
    (hs : OwnHeap kernel cr3 memmap space s.pcb s.pmm) {os : List BreakOp}
    (hothers : Meets (breakStep kernel cr3) (OthersApart kernel cr3 memmap space) s os) :
    Along (breakStep kernel cr3) (BreakKept kernel) s os ↔
      Along (breakStep kernel cr3) (fun s o _ => ¬ RunsOut kernel cr3 s o) s os :=
  @along_iff_of_meets _ _ _ (fun s => OwnHeap kernel cr3 memmap space s.pcb s.pmm) _ _ _
    (fun _ _ _ h hC hstep => h.step hmap hkernel hspace hC hstep) os s hs hothers

/-! ### Runs on fixed inputs -/

theorem BrkMoves.pcb_eq {kernel : AddressSpace} {cr3 : Nat} {pcb pcb' : UserHeap} {s s' : Pmm}
    (h : BrkMoves kernel cr3 pcb s newBrk r pcb' s') : pcb' = pcb ∨ pcb' = { pcb with heapEnd := newBrk } := by
  cases h with
  | asked _ => exact .inl rfl
  | refused _ _ => exact .inl rfl
  | denied _ _ _ => exact .inl rfl
  | stayed _ => exact .inl rfl
  | grown _ _ _ => exact .inr rfl
  | shrunk _ _ _ _ => exact .inr rfl

theorem not_runsOut_brk {kernel : AddressSpace} {cr3 : Nat} {s : BreakState}
    (h : growth s.pcb newBrk ≤ 1) : ¬ RunsOut kernel cr3 s (.brk newBrk) := by
  rintro ⟨x, hx, -, -, hshort⟩
  cases hx
  exact Pager.not_runsShort h hshort

/-- A process with an empty heap in a space that maps nothing. -/
def freshHeap : UserHeap := ⟨0x401000, 0x401000, 0x21000000, some ownSpace⟩

def freshState : BreakState := { pcb := freshHeap, pmm := ownPmm }

theorem freshState_own : OwnHeap bootSpace 0x12 bootMap ownSpace freshState.pcb freshState.pmm := by
  have hnone : ∀ page, page * pageSize < freshHeap.stackVaddrBase.toNat → translate ownPmm ownSpace.root page = none := by
    intro page hpage
    have hstack : freshHeap.stackVaddrBase.toNat = 0x21000000 := rfl
    rw [hstack] at hpage
    refine created_maps_nothing own_created ?_
    simp only [pageSize] at hpage
    omega
  refine ⟨⟨by decide, by decide, by decide, by decide⟩, rfl, ⟨fun r => False ∨ r = 0x12, .inr (.inr rfl), .inr rfl,
    own_spaces, fun page f _ h₂ hf => ?_⟩, ⟨by decide, fun page h₁ h₂ => ?_⟩⟩
  · rw [show translate freshState.pmm ownSpace.root page = none from hnone page h₂] at hf
    cases hf
  · rw [heapFrame, show translate freshState.pmm (pcbSpace bootSpace freshState.pcb).root page = none from hnone page h₂]
    exact ⟨fun h => (by cases h), fun h => absurd h (Nat.not_lt.mpr h₁)⟩

/-- The heap grows by a page, and the break goes back into it. -/
theorem break_exact_fresh :
    Along (breakStep bootSpace 0x12) (BreakKept bootSpace) freshState [.brk 0x402000, .brk 0x401800] := by
  have hothers : Meets (breakStep bootSpace 0x12) (OthersApart bootSpace 0x12 bootMap ownSpace) freshState
      [.brk 0x402000, .brk 0x401800] := ⟨trivial, fun _ _ => ⟨trivial, fun _ _ => trivial⟩⟩
  refine (break_exact_iff bootMap_good rfl rfl freshState_own hothers).mpr fun s hs => ⟨not_runsOut_brk (by decide), fun s' _ => ⟨not_runsOut_brk ?_, trivial⟩⟩
  have hpcb : s.pcb = freshHeap ∨ s.pcb = { freshHeap with heapEnd := 0x402000 } := by
    rcases breakStep_cases freshState_own.rounds freshState_own.ne_minus hs with ⟨_, ho, -⟩ | ⟨hnone, -⟩ | ⟨x, r, hx, hmoves, -⟩
    · cases ho
    · cases hnone
    · cases hx
      exact hmoves.pcb_eq
  rcases hpcb with hpcb | hpcb
  · rw [hpcb]
    decide
  · rw [hpcb]
    decide

/-- **The heap is to grow by sixteen pages with thirteen free**: the first of them stay mapped above the break. -/
theorem break_not_exact :
    OwnHeap bootSpace 0x12 bootMap ownSpace freshState.pcb freshState.pmm ∧
      ¬ Along (breakStep bootSpace 0x12) (BreakKept bootSpace) freshState [.brk 0x411000] := by
  have hfree : ownPmm.freePages.card = 13 := by decide +kernel
  obtain ⟨roots, hcr3, hroot, hs⟩ := freshState_own.untouched
  have hshort : (heapPager bootSpace 0x12 freshHeap).RunsShort (growth freshHeap 0x411000) (pageAbove freshHeap.heapEnd)
      ownPmm :=
    runsShort_of_few bootMap_good rfl hcr3 hroot rfl rfl freshState_own.layout.stackPage_le hs (by decide)
      (by rw [hfree]; decide) (by rw [hfree]; decide)
  obtain ⟨⟨pmm, hrun⟩, -⟩ := id hshort
  have hbrk := procBrk_grows freshState_own.rounds (by decide) (by decide) hrun
  have hstep : breakStep bootSpace 0x12 freshState (.brk 0x411000) = some ⟨freshHeap, pmm, true⟩ := by
    rw [breakStep, show freshState.pmm = ownPmm from rfl, hbrk]
    rfl
  refine ⟨freshState_own, fun halong => ?_⟩
  have hout : RunsOut bootSpace 0x12 freshState (.brk 0x411000) := ⟨0x411000, rfl, by decide, by decide, hshort⟩
  have hothers : OthersApart bootSpace 0x12 bootMap ownSpace freshState (.brk 0x411000) := trivial
  exact ((freshState_own.step bootMap_good rfl rfl hothers hstep).1.mp (halong _ hstep).1) hout

end Blackmount.Mem
