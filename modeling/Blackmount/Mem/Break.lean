import Blackmount.Lib.Region
import Blackmount.Mem.UserPages
import Blackmount.Proc.Cred

/-!
# Mem — the break

`proc_brk` and `proc_sbrk`: the heap of a process ends at its break, which moves page by page; and `sys_mmap`, which
moves it by a length.

* `growLoop_eq`, `shrinkLoop_eq`: the loops fill and empty a row of pages.
* `procBrk_moves`, `procSbrk_moves`: everything a call can do.
* `pagerLawful_own`, `pagerLawful_kernel`: one page, in the tables of the process or in the kernel's.
-/

namespace Blackmount.Mem
open Blackmount.Lib

/-! ### The calls -/

/-- The fields of a PCB that the break is kept in. -/
structure UserHeap where
  heapStart : UInt64
  heapEnd : UInt64
  stackVaddrBase : UInt64
  /-- None for a process in the kernel's space. -/
  addressSpace : Option AddressSpace
  deriving DecidableEq, Repr

def userCodeLimit : UInt64 := 0x20000000

/-- `(x + PAGE_SIZE - 1) & ~(PAGE_SIZE - 1)`; the sum wraps. -/
def pageUp (x : UInt64) : UInt64 := (x + 4095) / 4096 * 4096

def pcbSpace (kernel : AddressSpace) (pcb : UserHeap) : AddressSpace := pcb.addressSpace.getD kernel

section Calls

variable (kernel : AddressSpace) (cr3 : Nat)

/-- The body of the loop of `proc_brk` that maps: `vmm_alloc_page` returns the address it mapped. -/
def growPage (pcb : UserHeap) (va : Nat) : VmmM Bool :=
  match pcb.addressSpace with
  | some space => mapUserPage kernel space cr3 va []
  | none => do
      let mapped ← vmmAllocPage kernel va vmmUserPage
      return mapped ≠ 0

/-- The loop that maps, from `va` on; `false` is its early return. -/
def growLoop (pcb : UserHeap) (stop : UInt64) : Nat → UInt64 → VmmM Bool
  | 0, _ => fun _ => none
  | fuel + 1, va => do
      if va < stop then
        if ← growPage kernel cr3 pcb va.toNat then growLoop pcb stop fuel (va + 4096) else return false
      else return true

/-- The loop that unmaps, from `va` on. -/
def shrinkLoop (space : AddressSpace) (stop : UInt64) : Nat → UInt64 → VmmM Unit
  | 0, _ => fun _ => none
  | fuel + 1, va => do
      if va < stop then
        vmmUnmap space va.toNat
        shrinkLoop space stop fuel (va + 4096)
      else return ()

/-- More than the pages of 64 bits of addresses. -/
def loopFuel : Nat := 2 ^ 52 + 1

def brkLimit (pcb : UserHeap) : UInt64 := if pcb.stackVaddrBase ≠ 0 then pcb.stackVaddrBase else userCodeLimit

/-- `proc_brk` of the current process, if there is one; its PCB after the call. -/
def procBrk (proc : Option UserHeap) (newBrk : UInt64) : VmmM (UInt64 × Option UserHeap) :=
  match proc with
  | none => return (-1, none)
  | some pcb =>
      if newBrk = 0 then return (pcb.heapEnd, some pcb)
      else if newBrk < pcb.heapStart ∨ brkLimit pcb < newBrk then return (-1, some pcb)
      else if pcb.heapEnd < newBrk then do
        if ← growLoop kernel cr3 pcb (pageUp newBrk) loopFuel (pageUp pcb.heapEnd) then
          return (pcb.heapEnd, some { pcb with heapEnd := newBrk })
        else return (-1, some pcb)
      else if newBrk < pcb.heapEnd then do
        shrinkLoop (pcbSpace kernel pcb) (pageUp pcb.heapEnd) loopFuel (pageUp newBrk)
        return (pcb.heapEnd, some { pcb with heapEnd := newBrk })
      else return (pcb.heapEnd, some { pcb with heapEnd := newBrk })

/-- `new_brk` of `proc_sbrk`; none where it returns -1 before.  The negation wraps, at `INT64_MIN` only. -/
def sbrkTarget (pcb : UserHeap) (increment : Int64) : Option UInt64 :=
  if 0 < increment then
    let newBrk := pcb.heapEnd + increment.toUInt64
    if newBrk < pcb.heapEnd then none else some newBrk
  else
    let dec := (-increment).toUInt64
    if pcb.heapEnd - pcb.heapStart < dec then none else some (pcb.heapEnd - dec)

def procSbrk (proc : Option UserHeap) (increment : Int64) : VmmM (Int64 × Option UserHeap) :=
  match proc with
  | none => return (-1, none)
  | some pcb =>
      if increment = 0 then return (pcb.heapEnd.toInt64, some pcb)
      else
        match sbrkTarget pcb increment with
        | none => return (-1, some pcb)
        | some newBrk => do
            let (r, proc) ← procBrk kernel cr3 (some pcb) newBrk
            if r = -1 then return (-1, proc) else return (pcb.heapEnd.toInt64, proc)

def enomem : Nat := 12
def einval : Nat := 22

/-- `sys_mmap`, which reads its length only. -/
def sysMmap (proc : Option UserHeap) (length : UInt64) : VmmM (UInt64 × Option UserHeap) := do
  if length = 0 then return (Proc.serror einval, proc)
  else
    let (result, proc) ← procBrk kernel cr3 proc 0
    if result = -1 then return (Proc.serror enomem, proc)
    else
      let aligned := pageUp length
      let (newBrk, proc) ← procSbrk kernel cr3 proc aligned.toInt64
      if newBrk.toUInt64 = -1 then return (Proc.serror enomem, proc) else return (newBrk.toUInt64, proc)

/-- The pages of a heap. -/
def heapPager (pcb : UserHeap) : Pager Pmm where
  put page := growPage kernel cr3 pcb (page * pageSize)
  drop page := vmmUnmap (pcbSpace kernel pcb) (page * pageSize)

end Calls

/-! ### Rounding -/

/-- The first page that starts at an address or after it. -/
def pageAbove (x : UInt64) : Nat := (x.toNat + 4095) / pageSize

theorem pageUp_toNat {x : UInt64} (h : x.toNat + 4095 < 2 ^ 64) : (pageUp x).toNat = pageAbove x * pageSize := by
  have h4096 : (4096 : UInt64).toNat = 4096 := rfl
  have h4095 : (4095 : UInt64).toNat = 4095 := rfl
  rw [pageUp, UInt64.toNat_mul, UInt64.toNat_div, UInt64.toNat_add, h4096, h4095, Nat.mod_eq_of_lt h, pageAbove, pageSize]
  exact Nat.mod_eq_of_lt (by omega)

/-- A length that cannot be rounded up is rounded to nothing. -/
theorem pageUp_wraps {x : UInt64} (h : 2 ^ 64 ≤ x.toNat + 4095) : pageUp x = 0 := by
  have h4096 : (4096 : UInt64).toNat = 4096 := rfl
  have h4095 : (4095 : UInt64).toNat = 4095 := rfl
  have hlt := x.toNat_lt
  apply UInt64.toNat_inj.mp
  rw [pageUp, UInt64.toNat_mul, UInt64.toNat_div, UInt64.toNat_add, h4096, h4095, UInt64.toNat_zero]
  omega

theorem pageUp_mod (x : UInt64) : (pageUp x).toNat % pageSize = 0 := by
  rcases Nat.lt_or_ge (x.toNat + 4095) (2 ^ 64) with h | h
  · rw [pageUp_toNat h, Nat.mul_mod_left]
  · rw [pageUp_wraps h]
    rfl

/-! ### The loops are rows of pages -/

section Loops

variable {kernel : AddressSpace} {cr3 : Nat} {pcb : UserHeap} {stop va : UInt64} {fuel : Nat}

/-- One turn of a loop over the pages up to `stop`. -/
theorem next_page (hstop : stop.toNat % pageSize = 0) (hva : va.toNat % pageSize = 0) (h : va < stop) :
    (va + 4096).toNat % pageSize = 0 ∧ (va + 4096).toNat / pageSize = va.toNat / pageSize + 1 ∧
      (stop.toNat - va.toNat) / pageSize = (stop.toNat - (va + 4096).toNat) / pageSize + 1 := by
  have h4096 : (4096 : UInt64).toNat = 4096 := rfl
  have hlt := UInt64.lt_iff_toNat_lt.mp h
  have hstop64 := stop.toNat_lt
  simp only [pageSize] at hva hstop ⊢
  have hnext : (va + 4096).toNat = va.toNat + 4096 := by
    rw [UInt64.toNat_add, h4096]
    omega
  rw [hnext]
  omega

theorem no_page (h : ¬ va < stop) : (stop.toNat - va.toNat) / pageSize = 0 := by
  have hge : stop.toNat ≤ va.toNat := Nat.le_of_not_lt fun hlt => h (UInt64.lt_iff_toNat_lt.mpr hlt)
  rw [Nat.sub_eq_zero_of_le hge, Nat.zero_div]

/-- **The loop that maps** fills the pages up to its end; it has fuel enough. -/
theorem growLoop_eq (hstop : stop.toNat % pageSize = 0) : ∀ {fuel : Nat} {va : UInt64}, va.toNat % pageSize = 0 →
    (stop.toNat - va.toNat) / pageSize < fuel →
    growLoop kernel cr3 pcb stop fuel va =
      (heapPager kernel cr3 pcb).putFrom ((stop.toNat - va.toNat) / pageSize) (va.toNat / pageSize) := by
  intro fuel
  induction fuel with
  | zero => exact fun _ h => absurd h (Nat.not_lt_zero _)
  | succ fuel ih =>
      intro va hva hfuel
      rw [growLoop]
      by_cases hlt : va < stop
      · obtain ⟨hnext, hpage, hpages⟩ := next_page hstop hva hlt
        rw [if_pos hlt, hpages, Pager.putFrom, ih hnext (by omega), hpage]
        simp only [heapPager, Nat.div_mul_cancel (Nat.dvd_of_mod_eq_zero hva)]
      · rw [if_neg hlt, no_page hlt]
        rfl

/-- **The loop that unmaps** empties the pages up to its end. -/
theorem shrinkLoop_eq (cr3 : Nat) (hstop : stop.toNat % pageSize = 0) : ∀ {fuel : Nat} {va : UInt64}, va.toNat % pageSize = 0 →
    (stop.toNat - va.toNat) / pageSize < fuel →
    shrinkLoop (pcbSpace kernel pcb) stop fuel va =
      (heapPager kernel cr3 pcb).dropFrom ((stop.toNat - va.toNat) / pageSize) (va.toNat / pageSize) := by
  intro fuel
  induction fuel with
  | zero => exact fun _ h => absurd h (Nat.not_lt_zero _)
  | succ fuel ih =>
      intro va hva hfuel
      rw [shrinkLoop]
      by_cases hlt : va < stop
      · obtain ⟨hnext, hpage, hpages⟩ := next_page hstop hva hlt
        rw [if_pos hlt, hpages, Pager.dropFrom, ih hnext (by omega), hpage]
        simp only [heapPager, Nat.div_mul_cancel (Nat.dvd_of_mod_eq_zero hva)]
      · rw [if_neg hlt, no_page hlt]
        rfl

/-- The pages between the tops of two breaks. -/
theorem pages_between {lo hi : UInt64} (hlo : lo.toNat + 4095 < 2 ^ 64) (hhi : hi.toNat + 4095 < 2 ^ 64) :
    ((pageUp hi).toNat - (pageUp lo).toNat) / pageSize = pageAbove hi - pageAbove lo ∧
      (pageUp lo).toNat / pageSize = pageAbove lo := by
  rw [pageUp_toNat hlo, pageUp_toNat hhi, ← Nat.sub_mul, Nat.mul_div_cancel _ (by decide), Nat.mul_div_cancel _ (by decide)]
  exact ⟨rfl, rfl⟩

theorem loopFuel_enough (x y : UInt64) : (x.toNat - y.toNat) / pageSize < loopFuel := by
  have hx := x.toNat_lt
  have hfuel : loopFuel = 4503599627370497 := by decide
  rw [hfuel, pageSize]
  omega

end Loops

/-! ### What a call does -/

section Moves

variable (kernel : AddressSpace) (cr3 : Nat)

/-- The pages by which the heap grows to a break. -/
def growth (pcb : UserHeap) (newBrk : UInt64) : Nat := pageAbove newBrk - pageAbove pcb.heapEnd

/-- The result of `proc_brk`, the PCB and the memory after it. -/
inductive BrkMoves (pcb : UserHeap) (s : Pmm) (newBrk : UInt64) : UInt64 → UserHeap → Pmm → Prop
  | asked (hzero : newBrk = 0) : BrkMoves pcb s newBrk pcb.heapEnd pcb s
  | refused (hne : newBrk ≠ 0) (hout : newBrk < pcb.heapStart ∨ brkLimit pcb < newBrk) : BrkMoves pcb s newBrk (-1) pcb s
  | grown {s' : Pmm} (hin : pcb.heapStart ≤ newBrk ∧ newBrk ≤ brkLimit pcb) (hlt : pcb.heapEnd < newBrk)
      (hrun : (heapPager kernel cr3 pcb).putFrom (growth pcb newBrk) (pageAbove pcb.heapEnd) s = some (true, s')) :
      BrkMoves pcb s newBrk pcb.heapEnd { pcb with heapEnd := newBrk } s'
  | denied {s' : Pmm} (hin : pcb.heapStart ≤ newBrk ∧ newBrk ≤ brkLimit pcb) (hlt : pcb.heapEnd < newBrk)
      (hrun : (heapPager kernel cr3 pcb).putFrom (growth pcb newBrk) (pageAbove pcb.heapEnd) s = some (false, s')) :
      BrkMoves pcb s newBrk (-1) pcb s'
  | shrunk {s' : Pmm} (hne : newBrk ≠ 0) (hin : pcb.heapStart ≤ newBrk ∧ newBrk ≤ brkLimit pcb) (hlt : newBrk < pcb.heapEnd)
      (hrun : (heapPager kernel cr3 pcb).dropFrom (pageAbove pcb.heapEnd - pageAbove newBrk) (pageAbove newBrk) s =
        some ((), s')) :
      BrkMoves pcb s newBrk pcb.heapEnd { pcb with heapEnd := newBrk } s'
  | stayed (hin : newBrk = pcb.heapEnd) : BrkMoves pcb s newBrk pcb.heapEnd pcb s

/-- Breaks that can be rounded up to a page. -/
def Rounds (pcb : UserHeap) : Prop := pcb.heapEnd.toNat + 4095 < 2 ^ 64 ∧ (brkLimit pcb).toNat + 4095 < 2 ^ 64

variable {kernel cr3} {pcb : UserHeap} {s s' : Pmm} {newBrk : UInt64}

/-- **`proc_brk`**, case by case. -/
theorem procBrk_moves (h : Rounds pcb) {r : UInt64} {proc : Option UserHeap}
    (hrun : procBrk kernel cr3 (some pcb) newBrk s = some ((r, proc), s')) :
    ∃ pcb', proc = some pcb' ∧ BrkMoves kernel cr3 pcb s newBrk r pcb' s' := by
  obtain ⟨hend, hlimit⟩ := h
  rw [procBrk] at hrun
  split at hrun
  · next hzero =>
      cases hrun
      exact ⟨_, rfl, .asked hzero⟩
  next hne =>
  split at hrun
  · next hout =>
      cases hrun
      exact ⟨_, rfl, .refused hne hout⟩
  next hout =>
  have hin : pcb.heapStart ≤ newBrk ∧ newBrk ≤ brkLimit pcb := by
    rw [not_or, UInt64.not_lt, UInt64.not_lt] at hout
    exact hout
  have hnew : newBrk.toNat + 4095 < 2 ^ 64 := by
    have := UInt64.le_iff_toNat_le.mp hin.2
    omega
  split at hrun
  · next hlt =>
      obtain ⟨hpages, hfirst⟩ := pages_between hend hnew
      rw [growLoop_eq (pageUp_mod _) (pageUp_mod _) (loopFuel_enough _ _), hpages, hfirst] at hrun
      obtain ⟨_ | _, s₁, hput, hrest⟩ := bind_some.mp hrun
      · cases hrest
        exact ⟨_, rfl, .denied hin hlt hput⟩
      · cases hrest
        exact ⟨_, rfl, .grown hin hlt hput⟩
  next hge =>
  split at hrun
  · next hlt =>
      obtain ⟨hpages, hfirst⟩ := pages_between hnew hend
      rw [shrinkLoop_eq cr3 (pageUp_mod _) (pageUp_mod _) (loopFuel_enough _ _), hpages, hfirst] at hrun
      obtain ⟨⟨⟩, s₁, hdrop, hrest⟩ := bind_some.mp hrun
      cases hrest
      exact ⟨_, rfl, .shrunk hne hin hlt hdrop⟩
  · next hge' =>
      have heq : newBrk = pcb.heapEnd := UInt64.le_antisymm (UInt64.not_lt.mp hge) (UInt64.not_lt.mp hge')
      have hsame : { pcb with heapEnd := newBrk } = pcb := by rw [heq]
      cases hrun
      exact ⟨pcb, congrArg some hsame, .stayed heq⟩

/-- A break that is to grow the heap, with what becomes of its pages. -/
theorem procBrk_grows (h : Rounds pcb) (hin : pcb.heapStart ≤ newBrk ∧ newBrk ≤ brkLimit pcb) (hlt : pcb.heapEnd < newBrk)
    {b : Bool}
    (hrun : (heapPager kernel cr3 pcb).putFrom (growth pcb newBrk) (pageAbove pcb.heapEnd) s = some (b, s')) :
    procBrk kernel cr3 (some pcb) newBrk s =
      some (if b then (pcb.heapEnd, some { pcb with heapEnd := newBrk }) else (-1, some pcb), s') := by
  have hnew : newBrk.toNat + 4095 < 2 ^ 64 := by
    have := UInt64.le_iff_toNat_le.mp hin.2
    have := h.2
    omega
  have hne : newBrk ≠ 0 := by
    rintro rfl
    exact absurd hlt (UInt64.not_lt.mpr UInt64.zero_le)
  obtain ⟨hpages, hfirst⟩ := pages_between h.1 hnew
  rw [growth] at hrun
  rw [procBrk, if_neg hne, if_neg (by rw [not_or, UInt64.not_lt, UInt64.not_lt]; exact hin), if_pos hlt,
    growLoop_eq (pageUp_mod _) (pageUp_mod _) (loopFuel_enough _ _), hpages, hfirst, bind_run, hrun]
  cases b <;> rfl

/-- A break that shrinks the heap is always moved. -/
theorem procBrk_shrunk (h : Rounds pcb) (hne : newBrk ≠ 0) (hin : pcb.heapStart ≤ newBrk ∧ newBrk ≤ brkLimit pcb)
    (hlt : newBrk < pcb.heapEnd)
    (hrun : (heapPager kernel cr3 pcb).dropFrom (pageAbove pcb.heapEnd - pageAbove newBrk) (pageAbove newBrk) s =
      some ((), s')) :
    procBrk kernel cr3 (some pcb) newBrk s = some ((pcb.heapEnd, some { pcb with heapEnd := newBrk }), s') := by
  have hnew : newBrk.toNat + 4095 < 2 ^ 64 := by
    have := UInt64.le_iff_toNat_le.mp hin.2
    have := h.2
    omega
  obtain ⟨hpages, hfirst⟩ := pages_between hnew h.1
  rw [procBrk, if_neg hne, if_neg (by rw [not_or, UInt64.not_lt, UInt64.not_lt]; exact hin),
    if_neg (UInt64.not_lt.mpr (UInt64.le_of_lt hlt)), if_pos hlt,
    shrinkLoop_eq cr3 (pageUp_mod _) (pageUp_mod _) (loopFuel_enough _ _), hpages, hfirst, bind_run, hrun]
  rfl

/-- **`proc_sbrk`** is `proc_brk` at its target, unless it goes nowhere. -/
theorem procSbrk_moves (h : Rounds pcb) {increment r : Int64} {proc : Option UserHeap}
    (hrun : procSbrk kernel cr3 (some pcb) increment s = some ((r, proc), s')) :
    (increment = 0 ∧ r = pcb.heapEnd.toInt64 ∧ proc = some pcb ∧ s' = s) ∨
      (increment ≠ 0 ∧ sbrkTarget pcb increment = none ∧ r = -1 ∧ proc = some pcb ∧ s' = s) ∨
      ∃ newBrk r₁ pcb', increment ≠ 0 ∧ sbrkTarget pcb increment = some newBrk ∧ proc = some pcb' ∧
        BrkMoves kernel cr3 pcb s newBrk r₁ pcb' s' ∧ r = if r₁ = -1 then -1 else pcb.heapEnd.toInt64 := by
  rw [procSbrk] at hrun
  split at hrun
  · next hzero =>
      cases hrun
      exact .inl ⟨hzero, rfl, rfl, rfl⟩
  next hne =>
  cases htarget : sbrkTarget pcb increment with
  | none =>
      rw [htarget] at hrun
      cases hrun
      exact .inr (.inl ⟨hne, rfl, rfl, rfl, rfl⟩)
  | some newBrk =>
      rw [htarget] at hrun
      obtain ⟨⟨r₁, proc₁⟩, s₁, hbrk, hrest⟩ := bind_some.mp hrun
      obtain ⟨pcb', rfl, hmoves⟩ := procBrk_moves h hbrk
      refine .inr (.inr ⟨newBrk, r₁, pcb', hne, rfl, ?_⟩)
      dsimp only at hrest
      split at hrest
      · next hfail =>
          cases hrest
          exact ⟨rfl, hmoves, (if_pos hfail).symm⟩
      · next hok =>
          cases hrest
          exact ⟨rfl, hmoves, (if_neg hok).symm⟩

end Moves

/-! ### Pages in the tables of the process -/

section Own

variable {memmap : List MemmapEntry} {kroot : Nat} {roots : Nat → Prop} {r lo hi : Nat} {kernel space : AddressSpace} {cr3 : Nat}
  {pcb : UserHeap} {s s₀ : Pmm}

variable (memmap kroot roots r lo hi s₀) in
/-- From `s₀` on, no page with a frame of its own was written to; those of the pages from `lo` to `hi` are such. -/
structure Untouched (s : Pmm) : Prop where
  moved : Moved memmap kroot roots (translate s) s₀ s
  apart : ∀ {page f}, lo ≤ page → page < hi → translate s r page = some f → Apart kroot roots s f

/-- What is mapped otherwise is mapped to a frame of its own. -/
theorem Untouched.step (h : Untouched memmap kroot roots r lo hi s₀ s) (hhi : hi ≤ 2 ^ 35) {p : Nat} {x : Option Nat} {s' : Pmm}
    (hm : Moved memmap kroot roots (translate s') s s')
    (htrans : ∀ q, q < 2 ^ 35 → translate s' r q = Function.update (translate s r) p x q)
    (hx : ∀ f, x = some f → Apart kroot roots s' f) : Untouched memmap kroot roots r lo hi s₀ s' := by
  refine ⟨h.moved.trans' hm, fun {page f} h₁ h₂ hf => ?_⟩
  rw [htrans page (by omega)] at hf
  by_cases hp : page = p
  · rw [hp, Function.update_self] at hf
    exact hx f hf
  · rw [Function.update_of_ne hp] at hf
    exact hm.apart (h.apart h₁ h₂ hf)

theorem remapped_update {p q : Nat} {x : Option Nat} : remapped s r p x r q = Function.update (translate s r) p x q := by
  by_cases h : q = p
  · rw [remapped, if_pos ⟨rfl, h⟩, h, Function.update_self]
  · rw [remapped, if_neg fun e => h e.2, Function.update_of_ne h]

/-- **A page of a process with a space of its own** is mapped or unmapped in its tables alone. -/
theorem pagerLawful_own (hmap : GoodMap memmap) (hkernel : kernel.pml4 = kroot * pageSize) (hcr3 : AnyRoot kroot roots cr3)
    (hr : roots r) (hspace : space.pml4 = r * pageSize) (hpcb : pcb.addressSpace = some space) (hhi : hi ≤ 2 ^ 35) :
    (heapPager kernel cr3 pcb).Lawful (Untouched memmap kroot roots r lo hi s₀) (fun s => translate s r) (· < 2 ^ 35) := by
  have hva : ∀ {p}, p < 2 ^ 35 → p * pageSize < 2 ^ 47 := fun hp => by
    simp only [pageSize]
    omega
  have hpage : ∀ p, p * pageSize / pageSize = p := fun p => Nat.mul_div_cancel _ (by decide)
  constructor
  · intro p s hp hI
    have hput : (heapPager kernel cr3 pcb).put p s = mapUserPage kernel space cr3 (p * pageSize) [] s := by
      simp only [heapPager, growPage, hpcb]
    rcases hI.moved.spaces.mapUserPage hmap hkernel hcr3 hr (hva hp) hspace (show ([] : List UInt8).length ≤ pageSize from Nat.zero_le _) with
      ⟨s', hrun, hm, hsame⟩ | ⟨f, s', hrun, hm, -, hf, -, htrans⟩
    · refine .inl ⟨s', hput.trans hrun, ⟨hI.moved.trans' hm, fun {page g} h₁ h₂ hg => ?_⟩, fun q hq => hsame hr hq⟩
      rw [hsame hr (by omega)] at hg
      exact hm.apart (hI.apart h₁ h₂ hg)
    · have hview : ∀ q, q < 2 ^ 35 → translate s' r q = Function.update (translate s r) p (some f) q := by
        intro q hq
        rw [htrans hr hq, hpage, remapped_update]
      exact .inr ⟨f, s', hput.trans hrun, hI.step hhi hm hview fun g hg => Option.some.inj hg ▸ hf, hview⟩
  · intro p s hp hI
    have hdrop : (heapPager kernel cr3 pcb).drop p s = vmmUnmap space (p * pageSize) s := by
      simp only [heapPager, pcbSpace, hpcb, Option.getD_some]
    obtain ⟨s', hrun, hm⟩ := hI.moved.spaces.unmap hmap (.inr ⟨hr, hva hp⟩) hspace
    have hview : ∀ q, q < 2 ^ 35 → translate s' r q = Function.update (translate s r) p none q := by
      intro q hq
      rw [hm.trans (.inr ⟨hr, hq⟩), hpage, remapped_update]
    exact ⟨s', hdrop.trans hrun, hI.step hhi hm.forget hview fun g hg => (by cases hg), hview⟩

end Own

/-! ### Pages in the tables of the kernel -/

section Kernel

variable {memmap : List MemmapEntry} {n : Nat} {kernel space : AddressSpace} {cr3 : Nat} {pcb : UserHeap} {s : Pmm}

/-- **`vmm_alloc_page`** in the lower half maps the page, or has given back what it took. -/
theorem lower_allocPage (hmap : GoodMap memmap) (h : LowerTables memmap n s) (hroot : space.pml4 = n * pageSize) {v flags : Nat}
    (hv : v < 2 ^ 47) (hflags : flags < pageSize) :
    (∃ s', vmmAllocPage space v flags s = some (0, s') ∧ LowerTables memmap n s' ∧
        ∀ page, page < 2 ^ 35 → translate s' n page = translate s n page) ∨
      ∃ p s', vmmAllocPage space v flags s = some (v, s') ∧ LowerTables memmap n s' ∧
        ∀ page, page < 2 ^ 35 → translate s' n page = Function.update (translate s n) (v / pageSize) (some p) page := by
  rcases h.sound.alloc hmap h.placed with ⟨hr, -⟩ | ⟨p, s₁, hr, hp, hp0, haddr, hsound, hsame, hset, -, hmem⟩
  · refine .inl ⟨s, ?_, h, fun _ _ => rfl⟩
    rw [vmmAllocPage, bind_run, show allocFrame s = some (0, s) from hr]
    rfl
  obtain ⟨hg, hwalk, -⟩ := h.alloc hp hsound hsame hset hmem
  have hlt := ((Pmm.mem_freePages h.placed).mp hp).1
  have h52 := h.sound.sized.total
  have h64 : (pageAddr p).toNat < 2 ^ 64 := (pageAddr p).toNat_lt
  have hrun : ∀ {b s₂}, vmmMap space v (pageAddr p).toNat flags s₁ = some (b, s₂) → vmmAllocPage space v flags s =
      if b = true then some (v, s₂) else (freeFrame (pageAddr p) s₂).map fun q => (0, q.2) := by
    intro b s₂ hb
    rw [vmmAllocPage, bind_run, show allocFrame s = some (pageAddr p, s₁) from hr, Option.bind_some]
    simp only
    rw [if_neg (pageAddr_ne hp0 haddr), bind_run, hb]
    cases b
    · simp only [Option.bind_some, Bool.false_eq_true, if_false]
      rw [bind_run]
      cases freeFrame (pageAddr p) s₂ <;> rfl
    · rfl
  rcases vmmMap_spec hmap hg.tables (covers_lower hv) hroot h64 hflags with ⟨s₂, hb, hg₂, -⟩ | ⟨s₂, hb, hm⟩
  · -- the frame is no table: it was free, and then the caller's
    have hnot : ¬ IsTable s₂ (fun _ : Unit => n) Lower p := by
      intro ht
      rcases hg₂.reached p ht with ⟨r, q, hq, hw⟩ | hin
      · exact (h.used p ⟨r, q, hq, (hwalk r q hq).symm.trans hw⟩).1 hp
      · rw [hset] at hin
        exact Finset.notMem_erase _ _ hin
    have hsame₂ := hsame.trans hg₂.same
    obtain ⟨s₃, hfree, hsound₃, hsame₃, hset₃, hmem₃⟩ := hg₂.tables.sound.release hg₂.tables.placed (k := 0) hp0 (by omega)
      (fun _ => ⟨(h.sound.free p hp).1, hsame₂.outside.mpr (h.sound.free p hp).2⟩) (by decide)
    have hsub : s₃.freePages ⊆ insert p s₂.freePages := by
      rw [hset₃]
      split
      · exact Finset.Subset.refl _
      · exact Finset.subset_insert _ _
    obtain ⟨htables, -, hlast⟩ := hg₂.tables.release hnot hsound₃ hsame₃ hsub hmem₃
    rw [Nat.add_zero] at hfree
    refine .inl ⟨s₃, ?_, htables, fun page hpage => ?_⟩
    · rw [hrun hb, if_neg Bool.false_ne_true, freeFrame, pageAddr, hfree]
      rfl
    · have hvp : page * pageSize < 2 ^ 47 := by
        simp only [pageSize]
        omega
      rw [translate, hlast (covers_lower hvp).tables.2.2.2]
      exact (hg₂.translate hpage).trans (hg.translate hpage)
  · refine .inr ⟨p, s₂, by rw [hrun hb, if_pos rfl], hm.tables, fun page hpage => ?_⟩
    rw [hm.translate hv hpage, hg.translate hpage, haddr, Nat.mul_div_cancel _ (by decide)]
    by_cases e : page = v / pageSize
    · rw [if_pos e, e, Function.update_self]
    · rw [if_neg e, Function.update_of_ne e]

/-- **A page of a process in the kernel's space** is mapped or unmapped in the kernel's tables alone. -/
theorem pagerLawful_kernel (hmap : GoodMap memmap) (hkernel : kernel.pml4 = n * pageSize) (hpcb : pcb.addressSpace = none) :
    (heapPager kernel cr3 pcb).Lawful (LowerTables memmap n) (fun s => translate s n) fun page => page ≠ 0 ∧ page < 2 ^ 35 := by
  have hva : ∀ {p}, p < 2 ^ 35 → p * pageSize < 2 ^ 47 := fun hp => by
    simp only [pageSize]
    omega
  have hpage : ∀ p, p * pageSize / pageSize = p := fun p => Nat.mul_div_cancel _ (by decide)
  constructor
  · rintro p s ⟨hp0, hp⟩ h
    have hne : p * pageSize ≠ 0 := Nat.mul_ne_zero hp0 (by decide)
    have hput : ∀ {v s'}, vmmAllocPage kernel (p * pageSize) vmmUserPage s = some (v, s') →
        (heapPager kernel cr3 pcb).put p s = some (decide (v ≠ 0), s') := by
      intro v s' hrun
      simp only [heapPager, growPage, hpcb]
      rw [bind_run, hrun]
      rfl
    rcases lower_allocPage hmap h hkernel (hva hp) (show vmmUserPage < pageSize by decide) with
      ⟨s', hrun, ht, hsame⟩ | ⟨f, s', hrun, ht, htrans⟩
    · exact .inl ⟨s', hput hrun, ht, fun q hq => hsame q hq.2⟩
    · refine .inr ⟨f, s', by rw [hput hrun, decide_eq_true hne], ht, fun q hq => ?_⟩
      rw [htrans q hq.2, hpage]
  · rintro p s ⟨-, hp⟩ h
    have hdrop : (heapPager kernel cr3 pcb).drop p s = vmmUnmap kernel (p * pageSize) s := by
      simp only [heapPager, pcbSpace, hpcb, Option.getD_none]
    obtain ⟨s', hrun, hm⟩ := vmmUnmap_spec h (covers_lower (hva hp)) hkernel
    refine ⟨s', hdrop.trans hrun, hm.tables, fun q hq => ?_⟩
    rw [hm.translate (hva hp) hq.2, hpage]
    by_cases e : q = p
    · rw [if_pos e, e, Function.update_self]
    · rw [if_neg e, Function.update_of_ne e]

/-- `vmm_alloc_page` returns the address or `NULL`. -/
theorem vmmAllocPage_result {v flags x : Nat} {s' : Pmm} (h : vmmAllocPage space v flags s = some (x, s')) : x = 0 ∨ x = v := by
  rw [vmmAllocPage] at h
  obtain ⟨phys, s₁, -, h⟩ := bind_some.mp h
  split at h
  · cases h
    exact .inl rfl
  · obtain ⟨_ | _, s₂, -, h⟩ := bind_some.mp h
    · obtain ⟨⟨⟩, s₃, -, h⟩ := bind_some.mp h
      cases h
      exact .inl rfl
    · cases h
      exact .inr rfl

/-- The page at 0 is never granted: the address that `vmm_alloc_page` returns is `NULL`. -/
theorem page_zero_denied (hpcb : pcb.addressSpace = none) {k : Nat} {b : Bool} {s' : Pmm}
    (hrun : (heapPager kernel cr3 pcb).putFrom (k + 1) 0 s = some (b, s')) : b = false := by
  obtain ⟨b₁, s₁, hput, hrest⟩ := bind_some.mp hrun
  have hfalse : b₁ = false := by
    simp only [heapPager, growPage, hpcb] at hput
    obtain ⟨v, s₂, halloc, hret⟩ := bind_some.mp hput
    have hv : v = 0 := (vmmAllocPage_result halloc).elim id fun h => h.trans (Nat.zero_mul _)
    cases hret
    rw [hv]
    rfl
  rw [hfalse] at hrest
  cases hrest
  rfl

end Kernel

end Blackmount.Mem
