import Blackmount.Mem.Failure
import Blackmount.Mem.NewSpaces

/-!
# Mem — DMA buffers

`dma.c`: `dma_alloc` takes frames, looks whether they suit the device, takes a part of the DMA window, maps it, and enters it
in a table.  Where one of these fails it gives back what it took, and tries again.

* `dmaRound_spec`: a round either ends the loop or has changed nothing that the next one depends on, but for tables that it
  made.
* `dmaInit_ready`: the state that `dma_init` leaves.
* `dma_terminates_iff`: the loop ends exactly when its first round does not fail.
-/

namespace Blackmount.Mem
open Blackmount.Lib

def dmaVirtBase : Nat := 0xFFFFE00000000000
def dmaVirtPageCount : Nat := 65536
def isaLimitPhys : UInt64 := 16 * 1024 * 1024
def isaPoolPages : Nat := 64
def isaPoolMaxTries : Nat := isaPoolPages * 8
def metaCap : Nat := 256
def dmaZoneIsa : Int32 := 1

def pageNocache : Nat := 2 ^ 4
def pageGlobal : Nat := 2 ^ 8
def dmaMapFlags : Nat := pagePresent ||| pageWrite ||| pageNocache ||| pageGlobal

/-- `meta_t` in use. -/
structure DmaMeta where
  virt : Nat
  phys : UInt64
  size : UInt64
  pages : UInt64
  zone : Int32
  fromIsaPool : Bool

/-- `isa_nodes`, as far as they are filled, and `isa_free_list`. -/
structure IsaPool where
  nodes : List UInt64 := []
  free : List (Fin nodes.length) := []

/-- The statics of `dma.c`, and the allocator below. -/
structure Dma where
  pmm : Pmm
  isa : IsaPool := {}
  virtBitmap : Nat → Bool := fun _ => false
  metas : Fin metaCap → Option DmaMeta := fun _ => none

/-! ### The allocators -/

/-- The address, or 0, and the bitmap. -/
def virtRangeAlloc (bitmap : Nat → Bool) (pages : Nat) : Nat × (Nat → Bool) :=
  match findRun (fun i => !bitmap i) pages dmaVirtPageCount 0 0 0 with
  | some start => (dmaVirtBase + start * pageSize, fun i => bitmap i || decide (start ≤ i ∧ i < start + pages))
  | none => (0, bitmap)

def virtRangeFree (bitmap : Nat → Bool) (virt pages : Nat) : Nat → Bool :=
  let start := (virt - dmaVirtBase) / pageSize
  fun i => bitmap i && !decide (start ≤ i ∧ i < start + pages)

def isaPageAlloc (pool : IsaPool) : UInt64 × IsaPool :=
  match pool.free with
  | [] => (0, pool)
  | i :: free => (pool.nodes.get i, { pool with free := free })

/-- `isa_page_free`; a page that is in no node goes back to `pmm.c`. -/
def isaPageFree (phys : UInt64) (d : Dma) : Option Dma :=
  match (List.finRange d.isa.nodes.length).find? fun i => d.isa.nodes.get i == phys with
  | some i => some { d with isa := { d.isa with free := i :: d.isa.free } }
  | none => (pmmFree phys d.pmm).map fun pmm => { d with pmm := pmm }

/-- A new node, in front of the free list. -/
def IsaPool.push (pool : IsaPool) (phys : UInt64) : IsaPool where
  nodes := pool.nodes ++ [phys]
  free := ⟨pool.nodes.length, by simp⟩ :: pool.free.map (Fin.castLE (by simp))

/-- `isa_pool_init`, for the tries that are left. -/
def isaPoolInit : Nat → Dma → Option Dma
  | 0, d => some d
  | tries + 1, d =>
      if isaPoolPages ≤ d.isa.nodes.length then some d
      else
        (pmmAlloc d.pmm).bind fun (p, pmm) =>
          if p = 0 then some { d with pmm := pmm }
          else if isaLimitPhys ≤ p then (pmmFree p pmm).bind fun pmm => isaPoolInit tries { d with pmm := pmm }
          else isaPoolInit tries { d with pmm := pmm, isa := d.isa.push p }

def dmaInit (pmm : Pmm) : Option Dma := isaPoolInit isaPoolMaxTries { pmm := pmm }

/-- `meta_alloc`, as an index. -/
def metaAlloc (metas : Fin metaCap → Option DmaMeta) : Option (Fin metaCap) :=
  (List.finRange metaCap).find? fun i => (metas i).isNone

/-! ### `dma_alloc` -/

structure DmaRequest where
  size : UInt64
  alignment : UInt64
  boundary : UInt64
  zone : Int32

namespace DmaRequest

/-- The checks at the entry. -/
def Accepted (q : DmaRequest) : Prop :=
  q.size ≠ 0 ∧ ¬ (q.alignment ≠ 0 ∧ q.alignment &&& (q.alignment - 1) ≠ 0) ∧
    ¬ (q.boundary ≠ 0 ∧ q.boundary &&& (q.boundary - 1) ≠ 0)

instance Accepted.decidable (q : DmaRequest) : Decidable q.Accepted := inferInstanceAs (Decidable (_ ∧ _ ∧ _))

/-- `(size + PAGE_SIZE - 1) / PAGE_SIZE`, where the sum wraps. -/
def pages (q : DmaRequest) : UInt64 := (q.size + 4095) / 4096

/-- The frame comes from the ISA pool. -/
def Pooled (q : DmaRequest) : Prop := q.zone = dmaZoneIsa ∧ q.pages = 1

instance Pooled.decidable (q : DmaRequest) : Decidable q.Pooled := inferInstanceAs (Decidable (_ ∧ _))

/-- The frames suit the device: they are in its zone, aligned, and in one part of the boundary. -/
def Suits (q : DmaRequest) (phys : UInt64) : Prop :=
  (q.zone = dmaZoneIsa → q.pages ≠ 1 → phys < isaLimitPhys) ∧ ¬ (q.alignment ≠ 0 ∧ phys &&& (q.alignment - 1) ≠ 0) ∧
    ¬ (q.boundary ≠ 0 ∧ phys &&& ~~~(q.boundary - 1) ≠ (phys + q.size - 1) &&& ~~~(q.boundary - 1))

instance Suits.decidable (q : DmaRequest) (phys : UInt64) : Decidable (q.Suits phys) := inferInstanceAs (Decidable (_ ∧ _ ∧ _))

end DmaRequest

/-- How a round of the loop ends: with the pointer that is returned, where 0 is `NULL`, or behind `retry`. -/
inductive DmaTry where
  | done (virt : Nat)
  | retry

/-- The frames of a round; 0 if there are none. -/
def dmaFrames (q : DmaRequest) (d : Dma) : Option (UInt64 × Dma) :=
  if q.Pooled then
    let (phys, isa) := isaPageAlloc d.isa
    some (phys, { d with isa := isa })
  else (pmmAllocPages q.pages d.pmm).map fun (phys, pmm) => (phys, { d with pmm := pmm })

/-- What is behind the label `retry`. -/
def dmaRetry (q : DmaRequest) (phys : UInt64) (d : Dma) : Option (DmaTry × Dma) :=
  if q.Pooled then (isaPageFree phys d).map fun d => (.retry, d)
  else (pmmFreePages phys q.pages d.pmm).map fun pmm => (.retry, { d with pmm := pmm })

/-- The body of the loop. -/
def dmaRound (kernel : AddressSpace) (q : DmaRequest) (d : Dma) : Option (DmaTry × Dma) := do
  let (phys, d) ← dmaFrames q d
  if phys = 0 then return (.done 0, d)
  else if q.Suits phys then
    let (virt, bitmap) := virtRangeAlloc d.virtBitmap q.pages.toNat
    if virt = 0 then dmaRetry q phys d
    else
      let (mapped, pmm) ← vmmMapRange kernel virt phys.toNat q.pages.toNat dmaMapFlags d.pmm
      if mapped then
        -- `memset(virt, 0, pages * PAGE_SIZE)` goes to the frames that were just mapped
        let pmm := pmm.clear phys.toNat (q.pages.toNat * pageSize)
        match metaAlloc d.metas with
        | none =>
            let (_, pmm) ← vmmUnmapRange kernel virt q.pages.toNat pmm
            dmaRetry q phys { d with pmm := pmm, virtBitmap := virtRangeFree bitmap virt q.pages.toNat }
        | some i =>
            let m : DmaMeta := ⟨virt, phys, q.size, q.pages, q.zone, decide q.Pooled⟩
            return (.done virt, { d with pmm := pmm, virtBitmap := bitmap, metas := Function.update d.metas i (some m) })
      else dmaRetry q phys { d with pmm := pmm, virtBitmap := virtRangeFree bitmap virt q.pages.toNat }
  else dmaRetry q phys d

/-- `for (;;)`, for at most `fuel` rounds: the pointer that is returned, if the loop has ended. -/
def dmaLoop (kernel : AddressSpace) (q : DmaRequest) : Nat → Dma → Option (Option Nat × Dma)
  | 0, d => some (none, d)
  | fuel + 1, d => do
      match ← dmaRound kernel q d with
      | (.done virt, d) => return (some virt, d)
      | (.retry, d) => dmaLoop kernel q fuel d

/-- `dma_alloc`. -/
def dmaAlloc (kernel : AddressSpace) (q : DmaRequest) (fuel : Nat) (d : Dma) : Option (Option Nat × Dma) :=
  if q.Accepted then dmaLoop kernel q fuel d else some (some 0, d)

/-! ### The window and its bitmap -/

section Window

variable {bitmap : Nat → Bool} {pages : Nat}

/-- The lowest part of the window that is free. -/
def LowestWindow (bitmap : Nat → Bool) (pages start : Nat) : Prop :=
  FreeRun (fun i => !bitmap i) pages dmaVirtPageCount start ∧
    ∀ i, FreeRun (fun i => !bitmap i) pages dmaVirtPageCount i → start ≤ i

theorem virtRangeAlloc_spec (bitmap : Nat → Bool) (pages : Nat) :
    (virtRangeAlloc bitmap pages = (0, bitmap) ∧ ∀ start, ¬ FreeRun (fun i => !bitmap i) pages dmaVirtPageCount start) ∨
      ∃ start taken, virtRangeAlloc bitmap pages = (dmaVirtBase + start * pageSize, taken) ∧ LowestWindow bitmap pages start ∧
        virtRangeFree taken (dmaVirtBase + start * pageSize) pages = bitmap := by
  rw [virtRangeAlloc]
  cases hfind : findRun (fun i => !bitmap i) pages dmaVirtPageCount 0 0 0 with
  | none => exact .inl ⟨rfl, fun start => findRun_eq_none hfind start⟩
  | some start =>
      obtain ⟨hrun, hlow⟩ := findRun_eq_some hfind
      refine .inr ⟨start, _, rfl, ⟨hrun, hlow⟩, funext fun i => ?_⟩
      have hstart : (dmaVirtBase + start * pageSize - dmaVirtBase) / pageSize = start := by
        rw [Nat.add_sub_cancel_left, Nat.mul_div_cancel _ (by decide)]
      simp only [virtRangeFree, hstart]
      by_cases hi : start ≤ i ∧ i < start + pages
      · have hfree := hrun.2.2 (i - start) (by omega)
        rw [show start + (i - start) = i by omega] at hfree
        simp only [hi, and_self, decide_true, Bool.or_true, Bool.not_true, Bool.and_false]
        simpa using hfree
      · simp only [hi, decide_false, Bool.or_false, Bool.not_false, Bool.and_true]

theorem pageAt_window {start j : Nat} (h : start + j < dmaVirtPageCount) :
    pageAt (dmaVirtBase + start * pageSize) j = dmaVirtBase + (start + j) * pageSize := by
  simp only [pageAt, dmaVirtBase, dmaVirtPageCount, pageSize] at *
  omega

end Window

/-! ### What the next round depends on -/

section Rounds

variable {R : Type} {memmap : List MemmapEntry} {root : R → Nat} {S : R → List Nat → Prop} {r : R} {s s' : Pmm}
  {kernel : AddressSpace} {q : DmaRequest} {d d' : Dma} {phys : UInt64}

/-- A run of pages that are neither free, nor tables, nor the bitmap's. -/
def Taken (root : R → Nat) (S : R → List Nat → Prop) (s : Pmm) (f n : Nat) : Prop :=
  ∀ p, f ≤ p → p < f + n → p ∉ s.freePages ∧ s.Outside p ∧ ¬ IsTable s root S p

theorem Adds.taken {P : Finset (List Nat)} (h : Adds memmap root S r P s s') {f n : Nat} (ht : Taken root S s f n) :
    Taken root S s' f n := by
  intro p h₁ h₂
  obtain ⟨hfree, hout, htable⟩ := ht p h₁ h₂
  refine ⟨fun hin => hfree (h.free hin), h.same.outside.mpr hout, fun hin => ?_⟩
  rcases h.reached p hin with hin | hin
  · exact htable hin
  · exact hfree hin

variable (memmap root S r) in
/-- Tables were made for the paths `P`, and nothing else was taken. -/
structure Spent (s s' : Pmm) : Prop where
  same : Pmm.Same s s'
  tables : Tables memmap root S s'
  free : s'.freePages ⊆ s.freePages
  reached : ∀ n, IsTable s' root S n → IsTable s root S n ∨ n ∈ s.freePages
  paid : ∃ P : Finset (List Nat), s'.freePages.card + P.card = s.freePages.card ∧
    ∀ {p}, S r p → walkTo s (root r) p = none → p ∈ P ∨ walkTo s' (root r) p = none

theorem Adds.spent {P : Finset (List Nat)} (h : Adds memmap root S r P s s') : Spent memmap root S r s s' := by
  refine ⟨h.same, h.tables, h.free, h.reached, P, h.card, fun {p} hp hnone => ?_⟩
  by_cases hnow : walkTo s' (root r) p = none
  · exact .inr hnow
  · exact .inl (((h.here hp).mp hnow).resolve_left (not_not.mpr hnone)).2

/-- What the tables of a range lacked before, besides frames, they lack still. -/
theorem Spent.provided (h : Spent memmap root S r s s') {virt taken k : Nat} (hcov : ∀ j < k, Covers S r (pageAt virt j))
    (hprov : Provided s' (root r) virt taken k) : Provided s (root r) virt taken k := by
  obtain ⟨P, hcard, hmissing⟩ := h.paid
  have hsub : needed s (root r) virt k ⊆ P ∪ needed s' (root r) virt k := by
    intro p hp
    obtain ⟨j, hj, hlack⟩ := Finset.mem_biUnion.mp hp
    obtain ⟨hpath, hnone⟩ := Finset.mem_filter.mp hlack
    obtain ⟨e, he, rfl⟩ := mem_tablePaths.mp hpath
    rcases hmissing ((hcov j (Finset.mem_range.mp hj)).take (by omega)) hnone with hin | hnone
    · exact Finset.mem_union_left _ hin
    · exact Finset.mem_union_right _ (Finset.mem_biUnion.mpr ⟨j, hj, Finset.mem_filter.mpr ⟨hpath, hnone⟩⟩)
  have hle := (Finset.card_le_card hsub).trans (Finset.card_union_le _ _)
  rw [Provided] at hprov ⊢
  omega

theorem freeRun_iff (hb : s.bitmap ≠ 0) {n p : Nat} :
    FreeRun s.isFree n s.totalPages p ↔ 0 < n ∧ p + n ≤ s.totalPages ∧ Finset.Ico p (p + n) ⊆ s.freePages := by
  constructor
  · rintro ⟨hn, hle, hfree⟩
    refine ⟨hn, hle, fun x hx => ?_⟩
    obtain ⟨h₁, h₂⟩ := Finset.mem_Ico.mp hx
    have := Pmm.Sound.run_free hb ⟨hn, hle, hfree⟩ (j := x - p) (by omega)
    rwa [show p + (x - p) = x by omega] at this
  · rintro ⟨hn, hle, hsub⟩
    exact ⟨hn, hle, fun j hj => ((Pmm.mem_freePages hb).mp (hsub (Finset.mem_Ico.mpr ⟨by omega, by omega⟩))).2⟩

/-- The lowest run stays the lowest while it is free and nothing was freed. -/
theorem Spent.lowest (h : Spent memmap root S r s s') (hb : s.bitmap ≠ 0) {n p : Nat}
    (hlow : FreeRun s.isFree n s.totalPages p ∧ ∀ p', FreeRun s.isFree n s.totalPages p' → p ≤ p')
    (hkept : Finset.Ico p (p + n) ⊆ s'.freePages) :
    FreeRun s'.isFree n s'.totalPages p ∧ ∀ p', FreeRun s'.isFree n s'.totalPages p' → p ≤ p' := by
  obtain ⟨hn, hle, -⟩ := (freeRun_iff hb).mp hlow.1
  rw [h.same.totalPages]
  have hb' : s'.bitmap ≠ 0 := h.same.bitmap.symm ▸ hb
  refine ⟨?_, fun p' hp' => hlow.2 p' ?_⟩
  · have := (@freeRun_iff s' hb' n p).mpr ⟨hn, h.same.totalPages.symm ▸ hle, hkept⟩
    rwa [h.same.totalPages] at this
  · have := (@freeRun_iff s' hb' n p').mp (by rwa [h.same.totalPages])
    exact (freeRun_iff hb).mpr ⟨hn, h.same.totalPages ▸ this.2.1, this.2.2.trans h.free⟩

/-- The frames that the next round gets. -/
def Given (q : DmaRequest) (d : Dma) (phys : UInt64) : Prop :=
  if q.Pooled then ∃ i, d.isa.free.head? = some i ∧ phys = d.isa.nodes.get i
  else ∃ p, phys = pageAddr p ∧ FreeRun d.pmm.isFree q.pages.toNat d.pmm.totalPages p ∧
    ∀ p', FreeRun d.pmm.isFree q.pages.toNat d.pmm.totalPages p' → p ≤ p'

/-- The pages of a request that come from the free ones. -/
def DmaRequest.own (q : DmaRequest) : Nat := if q.Pooled then 0 else q.pages.toNat

/-- The frames suit, and there are a part of the window, its tables, and an entry for them. -/
def Fitting (q : DmaRequest) (d : Dma) (n : Nat) (phys : UInt64) : Prop :=
  q.Suits phys ∧
    (∃ start, LowestWindow d.virtBitmap q.pages.toNat start ∧
      Provided d.pmm n (dmaVirtBase + start * pageSize) q.own q.pages.toNat) ∧
    ∃ i, d.metas i = none

variable (memmap root S r kernel) in
/-- The kernel's tables are sound and cover the window, and the pages of the pool are kept apart from them. -/
structure DmaReady (d : Dma) : Prop where
  tables : Tables memmap root S d.pmm
  kernel : kernel.pml4 = root r * pageSize
  window : ∀ i < dmaVirtPageCount, Covers S r (dmaVirtBase + i * pageSize)
  distinct : d.isa.nodes.Nodup
  pool : ∀ phys ∈ d.isa.nodes, ∃ f, phys = pageAddr f ∧ f ≠ 0 ∧ phys.toNat = f * pageSize ∧ Taken root S d.pmm f 1

theorem DmaReady.spent (h : DmaReady memmap root S r kernel d) (hs : Spent memmap root S r d.pmm d'.pmm)
    (hisa : d'.isa = d.isa) : DmaReady memmap root S r kernel d' := by
  refine ⟨hs.tables, h.kernel, h.window, by rw [hisa]; exact h.distinct, fun phys hphys => ?_⟩
  rw [hisa] at hphys
  obtain ⟨f, hf, hf0, haddr, ht⟩ := h.pool phys hphys
  refine ⟨f, hf, hf0, haddr, fun p h₁ h₂ => ?_⟩
  obtain ⟨hfree, hout, htable⟩ := ht p h₁ h₂
  refine ⟨fun hin => hfree (hs.free hin), hs.same.outside.mpr hout, fun hin => ?_⟩
  rcases hs.reached p hin with hin | hin
  · exact htable hin
  · exact hfree hin

/-! ### The pool -/

theorem Taken.allocated {f n : Nat} (ht : Taken root S s f n) (hfree : s'.freePages ⊆ s.freePages) (hsame : Pmm.Same s s')
    (hwalk : ∀ {r q}, S r q → walkTo s' (root r) q = walkTo s (root r) q) : Taken root S s' f n := by
  intro p h₁ h₂
  obtain ⟨hnot, hout, htable⟩ := ht p h₁ h₂
  refine ⟨fun hin => hnot (hfree hin), hsame.outside.mpr hout, ?_⟩
  rintro ⟨r', path, hpath, hw⟩
  exact htable ⟨r', path, hpath, (hwalk hpath).symm.trans hw⟩

/-- A state with more in the pool. -/
theorem DmaReady.move (h : DmaReady memmap root S r kernel d) (htables : Tables memmap root S d'.pmm)
    (hdistinct : d'.isa.nodes.Nodup)
    (hpool : ∀ phys ∈ d'.isa.nodes, ∃ f, phys = pageAddr f ∧ f ≠ 0 ∧ phys.toNat = f * pageSize ∧ Taken root S d'.pmm f 1) :
    DmaReady memmap root S r kernel d' := ⟨htables, h.kernel, h.window, hdistinct, hpool⟩

/-- The pool holds as many pages as it has places for, and ISA devices reach them. -/
def IsaPool.Low (pool : IsaPool) : Prop := pool.nodes.length ≤ isaPoolPages ∧ ∀ phys ∈ pool.nodes, phys < isaLimitPhys

/-- How many pages are free or in the pool. -/
def Dma.pages (d : Dma) : Nat := d.pmm.freePages.card + d.isa.nodes.length

/-- **The pool** is filled with pages that are nobody else's, and none is lost. -/
theorem isaPoolInit_ready (hmap : GoodMap memmap) : ∀ (tries : Nat) {d : Dma}, DmaReady memmap root S r kernel d → d.isa.Low →
    ∃ d', isaPoolInit tries d = some d' ∧ DmaReady memmap root S r kernel d' ∧ d'.isa.Low ∧ d'.pages = d.pages := by
  intro tries
  induction tries with
  | zero => exact fun {d} h hlow => ⟨d, rfl, h, hlow, rfl⟩
  | succ tries ih =>
      intro d h hlow
      have hrest {e : Dma} (he : e.pages = d.pages) := he ▸ @ih e
      have hb := h.tables.placed
      rw [isaPoolInit]
      split
      · exact ⟨d, rfl, h, hlow, rfl⟩
      next hroom =>
      obtain ⟨phys, s₁, halloc, ⟨rfl, rfl, -⟩ | ⟨p, rfl, hrun, -, hs₁⟩⟩ := Pmm.pmmAlloc_spec hb
      · exact ⟨d, by rw [halloc]; rfl, h, hlow, rfl⟩
      obtain ⟨hp0, haddr, -, -⟩ := h.tables.sound.allocRun hmap hb hrun
      obtain ⟨htables, hsame, hset, hwalk, -⟩ := h.tables.takeFrames hmap hrun hs₁
      have hfree := (Pmm.freeRun_one hb).mp hrun
      obtain ⟨huse, hout⟩ := h.tables.sound.free p hfree
      have hsub : s₁.freePages ⊆ d.pmm.freePages := hset ▸ Finset.sdiff_subset
      have hnew : Taken root S s₁ p 1 := by
        intro x h₁ h₂
        obtain rfl : x = p := by omega
        refine ⟨fun hin => ?_, hsame.outside.mpr hout, ?_⟩
        · rw [hset] at hin
          exact (Finset.mem_sdiff.mp hin).2 (Finset.mem_Ico.mpr ⟨h₁, h₂⟩)
        · rintro ⟨r', path, hpath, hw⟩
          exact (h.tables.used x ⟨r', path, hpath, (hwalk hpath).symm.trans hw⟩).1 hfree
      rw [halloc, Option.bind_some]
      dsimp only
      rw [if_neg (pageAddr_ne hp0 haddr)]
      split
      · -- the page is above the limit, and given back
        have hlt : p + 1 ≤ s₁.totalPages := hsame.totalPages.symm ▸ hrun.2.1
        obtain ⟨s₂, hback, htables₂, hsame₂, hfree₂, hwalk₂, -⟩ :=
          @Tables.giveBack R memmap root S s₁ htables 1 p 1 rfl (by decide) hp0 haddr hlt fun x h₁ h₂ => by
            obtain rfl : x = p := by omega
            exact ⟨huse, (hnew x h₁ h₂).2⟩
        have hfreed : pmmFree (pageAddr p) s₁ = some s₂ := by
          rw [freeFrames, pmmFreePages_one] at hback
          obtain ⟨t, ht, he⟩ := Option.map_eq_some_iff.mp hback
          cases he
          exact ht
        have hall : s₂.freePages = d.pmm.freePages := by
          rw [hfree₂, hset]
          exact Finset.sdiff_union_of_subset (by simpa using hfree)
        rw [hfreed, Option.bind_some]
        refine hrest (by rw [Dma.pages, hall]; rfl) (h.move htables₂ h.distinct fun phys hphys => ?_) hlow
        obtain ⟨f, hf, hf0, hfaddr, ht⟩ := h.pool phys hphys
        exact ⟨f, hf, hf0, hfaddr, ht.allocated hall.subset (hsame.trans hsame₂) fun hq => (hwalk₂ hq).trans (hwalk hq)⟩
      · next hlimit =>
        refine hrest ?_ (h.move htables (List.nodup_append.mpr ⟨h.distinct, List.nodup_singleton _, fun phys hphys x hx => ?_⟩)
          fun phys hphys => ?_) ⟨?_, List.forall_mem_append.mpr ⟨hlow.2, by simpa using hlimit⟩⟩
        · have hcard := Finset.card_erase_add_one hfree
          rw [Dma.pages, hset, Nat.Ico_succ_singleton, Finset.sdiff_singleton_eq_erase, IsaPool.push, List.length_append, Dma.pages,
            List.length_singleton]
          omega
        · -- the new page was free, those of the pool are not
          rintro rfl
          obtain ⟨f, -, -, hfaddr, ht⟩ := h.pool phys hphys
          obtain rfl : phys = pageAddr p := List.mem_singleton.mp hx
          obtain rfl : f = p := Nat.eq_of_mul_eq_mul_right (by decide) (hfaddr.symm.trans haddr)
          exact (ht f (Nat.le_refl f) (by omega)).1 hfree
        · rcases List.mem_append.mp hphys with hphys | hphys
          · obtain ⟨f, hf, hf0, hfaddr, ht⟩ := h.pool phys hphys
            exact ⟨f, hf, hf0, hfaddr, ht.allocated hsub hsame hwalk⟩
          · rw [List.mem_singleton.mp hphys]
            exact ⟨p, rfl, hp0, haddr, hnew⟩
        · rw [IsaPool.push, List.length_append]
          exact Nat.lt_of_not_le hroom

/-- **`dma_init`** over tables that are sound. -/
theorem dmaInit_ready (hmap : GoodMap memmap) (h : Tables memmap root S s) (hkernel : kernel.pml4 = root r * pageSize)
    (hwindow : ∀ i < dmaVirtPageCount, Covers S r (dmaVirtBase + i * pageSize)) :
    ∃ d, dmaInit s = some d ∧ DmaReady memmap root S r kernel d ∧ d.isa.Low ∧ d.pages = s.freePages.card :=
  isaPoolInit_ready hmap isaPoolMaxTries ⟨h, hkernel, hwindow, List.nodup_nil, fun _ hphys => absurd hphys List.not_mem_nil⟩
    ⟨Nat.zero_le _, fun _ hphys => absurd hphys List.not_mem_nil⟩

/-! ### One round -/

variable (memmap root S r kernel q phys) in
/-- What a round that failed has left: the next one gets the same frames, and fares no better. -/
structure Again (d d' : Dma) : Prop where
  ready : DmaReady memmap root S r kernel d'
  given : Given q d' phys
  spent : Spent memmap root S r d.pmm d'.pmm
  virtBitmap : d'.virtBitmap = d.virtBitmap
  metas : d'.metas = d.metas

theorem DmaReady.covers (h : DmaReady memmap root S r kernel d) {pages start : Nat}
    (hlow : LowestWindow d.virtBitmap pages start) : ∀ j < pages, Covers S r (pageAt (dmaVirtBase + start * pageSize) j) := by
  intro j hj
  have hle := hlow.1.2.1
  rw [pageAt_window (by omega)]
  exact h.window _ (by omega)

theorem Again.fitting (h : Again memmap root S r kernel q phys d d') (hready : DmaReady memmap root S r kernel d)
    (hfit : Fitting q d' (root r) phys) : Fitting q d (root r) phys := by
  obtain ⟨hsuits, ⟨start, hlow, hprov⟩, hmeta⟩ := hfit
  rw [h.virtBitmap] at hlow
  rw [h.metas] at hmeta
  exact ⟨hsuits, ⟨start, hlow, h.spent.provided (hready.covers hlow) hprov⟩, hmeta⟩

variable (memmap root S r kernel q) in
/-- The frames that a round has got, and what becomes of them behind `retry`. -/
structure Handed (d : Dma) (phys : UInt64) (f : Nat) (d₁ : Dma) : Prop where
  given : Given q d phys
  run : dmaFrames q d = some (phys, d₁)
  ne : phys ≠ 0
  addr : phys.toNat = f * pageSize
  virtBitmap : d₁.virtBitmap = d.virtBitmap
  metas : d₁.metas = d.metas
  tables : Tables memmap root S d₁.pmm
  taken : Taken root S d₁.pmm f q.pages.toNat
  provided : ∀ {virt}, (∀ j < q.pages.toNat, Covers S r (pageAt virt j)) →
    (Provided d₁.pmm (root r) virt 0 q.pages.toNat ↔ Provided d.pmm (root r) virt q.own q.pages.toNat)
  back : ∀ {P s₂}, Adds memmap root S r P d₁.pmm s₂ →
    ∃ d', dmaRetry q phys { d₁ with pmm := s₂ } = some (.retry, d') ∧ Again memmap root S r kernel q phys d d'

/-- A page of the pool. -/
theorem dmaFrames_pooled (h : DmaReady memmap root S r kernel d) (hq : q.Pooled) :
    (dmaFrames q d = some (0, d) ∧ ∀ phys, ¬ Given q d phys) ∨
      ∃ phys f d₁, Handed memmap root S r kernel q d phys f d₁ := by
  have hone : q.pages.toNat = 1 := by rw [hq.2]; rfl
  rw [dmaFrames, if_pos hq, isaPageAlloc]
  obtain ⟨s, ⟨nodes, free⟩, bitmap, metas⟩ := d
  cases free with
  | nil =>
      refine .inl ⟨rfl, fun phys hgiven => ?_⟩
      rw [Given, if_pos hq] at hgiven
      obtain ⟨i, hi, -⟩ := hgiven
      cases hi
  | cons i free =>
      obtain ⟨f, hf, hf0, haddr, htaken⟩ := h.pool (nodes.get i) (List.get_mem nodes i)
      have hgiven : ∀ s, Given q ⟨s, ⟨nodes, i :: free⟩, bitmap, metas⟩ (nodes.get i) := fun s => by
        rw [Given, if_pos hq]
        exact ⟨i, rfl, rfl⟩
      refine .inr ⟨nodes.get i, f, ⟨s, ⟨nodes, free⟩, bitmap, metas⟩, hgiven s, by rw [dmaFrames, if_pos hq]; rfl, ?_, haddr, rfl,
        rfl, h.tables, by rw [hone]; exact htaken, fun _ => by rw [DmaRequest.own, if_pos hq], fun {P s₂} hadds => ?_⟩
      · rw [hf]
        exact pageAddr_ne hf0 (hf ▸ haddr)
      · -- the node is found by its page
        have hfind : (List.finRange nodes.length).find? (fun j => nodes.get j == nodes.get i) = some i := by
          cases hfound : (List.finRange nodes.length).find? (fun j => nodes.get j == nodes.get i) with
          | none =>
              have := List.find?_eq_none.mp hfound i (List.mem_finRange i)
              simp at this
          | some j =>
              have hj := List.find?_some hfound
              rw [List.nodup_iff_injective_get.mp h.distinct (beq_iff_eq.mp hj)]
        refine ⟨⟨s₂, ⟨nodes, i :: free⟩, bitmap, metas⟩, ?_, ?_, hgiven s₂, hadds.spent, rfl, rfl⟩
        · rw [dmaRetry, if_pos hq, isaPageFree]
          simp only [hfind, Option.map_some]
        · exact @DmaReady.spent _ _ _ _ _ _ _ ⟨s₂, ⟨nodes, i :: free⟩, bitmap, metas⟩ h hadds.spent rfl

/-- Pages of `pmm.c`. -/
theorem dmaFrames_own (hmap : GoodMap memmap) (h : DmaReady memmap root S r kernel d) (hq : ¬ q.Pooled) :
    (dmaFrames q d = some (0, d) ∧ ∀ phys, ¬ Given q d phys) ∨
      ∃ phys f d₁, Handed memmap root S r kernel q d phys f d₁ := by
  have hb := h.tables.placed
  obtain ⟨phys, s₁, halloc, ⟨rfl, rfl, hnone⟩ | ⟨p, rfl, hrun, hlow, hs₁⟩⟩ := Pmm.pmmAllocPages_spec hb q.pages
  · refine .inl ⟨by rw [dmaFrames, if_neg hq, halloc]; rfl, fun phys hgiven => ?_⟩
    rw [Given, if_neg hq] at hgiven
    obtain ⟨p, -, hp, -⟩ := hgiven
    exact hnone p hp
  obtain ⟨hp0, haddr, -, -⟩ := h.tables.sound.allocRun hmap hb hrun
  obtain ⟨htables, hsame, hset, hwalk, -⟩ := h.tables.takeFrames hmap hrun hs₁
  obtain ⟨hpos, hle, hsub⟩ := (freeRun_iff hb).mp hrun
  have hcard : s₁.freePages.card + q.pages.toNat = d.pmm.freePages.card := by
    have hle := Finset.card_le_card hsub
    have hdiff := Finset.card_sdiff_of_subset hsub
    rw [Nat.card_Ico, Nat.add_sub_cancel_left] at hle hdiff
    rw [hset, hdiff]
    omega
  have htaken : Taken root S s₁ p q.pages.toNat := by
    intro x h₁ h₂
    have hx := hsub (Finset.mem_Ico.mpr ⟨h₁, h₂⟩)
    refine ⟨fun hin => ?_, hsame.outside.mpr (h.tables.sound.free x hx).2, ?_⟩
    · rw [hset] at hin
      exact (Finset.mem_sdiff.mp hin).2 (Finset.mem_Ico.mpr ⟨h₁, h₂⟩)
    · rintro ⟨r', path, hpath, hw⟩
      exact (h.tables.used x ⟨r', path, hpath, (hwalk hpath).symm.trans hw⟩).1 hx
  have hgiven : Given q d (pageAddr p) := by
    rw [Given, if_neg hq]
    exact ⟨p, rfl, hrun, hlow⟩
  refine .inr ⟨pageAddr p, p, { d with pmm := s₁ }, hgiven, by rw [dmaFrames, if_neg hq, halloc]; rfl, pageAddr_ne hp0 haddr, haddr,
    rfl, rfl, htables, htaken, fun {virt} hcov => ?_, fun {P s₂} hadds => ?_⟩
  · rw [DmaRequest.own, if_neg hq, Provided, Provided, needed_congr hcov hwalk]
    show _ + 0 ≤ s₁.freePages.card ↔ _
    omega
  · have hin : p + q.pages.toNat ≤ s₂.totalPages := by
      rw [hadds.same.totalPages, hsame.totalPages]
      exact hle
    obtain ⟨s₃, hback, htables₃, hsame₃, hfree₃, hwalk₃, -⟩ :=
      @Tables.giveBack R memmap root S s₂ hadds.tables q.pages.toNat p q.pages rfl (by omega) hp0 haddr hin fun x h₁ h₂ =>
        ⟨(h.tables.sound.free x (hsub (Finset.mem_Ico.mpr ⟨h₁, h₂⟩))).1, (hadds.taken htaken x h₁ h₂).2⟩
    have hsubset : s₃.freePages ⊆ d.pmm.freePages := by
      rw [hfree₃]
      refine Finset.union_subset (hadds.free.trans ?_) hsub
      show s₁.freePages ⊆ _
      rw [hset]
      exact Finset.sdiff_subset
    have hspent : Spent memmap root S r d.pmm s₃ := by
      refine ⟨(hsame.trans hadds.same).trans hsame₃, htables₃, hsubset, fun n hn => ?_, P, ?_, fun {path} hpath hnone => ?_⟩
      · obtain ⟨r', path, hpath, hw⟩ := hn
        rcases hadds.reached n ⟨r', path, hpath, (hwalk₃ hpath).symm.trans hw⟩ with ⟨r', path, hpath, hw⟩ | hin
        · exact .inl ⟨r', path, hpath, (hwalk hpath).symm.trans hw⟩
        · rw [show ({ d with pmm := s₁ } : Dma).pmm.freePages = s₁.freePages from rfl, hset] at hin
          exact .inr (Finset.mem_sdiff.mp hin).1
      · have hdisjoint : Disjoint s₂.freePages (Finset.Ico p (p + q.pages.toNat)) := by
          refine Finset.disjoint_left.mpr fun x hx hin => ?_
          obtain ⟨h₁, h₂⟩ := Finset.mem_Ico.mp hin
          exact (hadds.taken htaken x h₁ h₂).1 hx
        have hpaid : s₂.freePages.card + P.card = s₁.freePages.card := hadds.card
        rw [hfree₃, Finset.card_union_of_disjoint hdisjoint, Nat.card_Ico, Nat.add_sub_cancel_left]
        omega
      · rw [hwalk₃ hpath]
        rw [← hwalk hpath] at hnone
        by_cases hnow : walkTo s₂ (root r) path = none
        · exact .inr hnow
        · exact .inl (((hadds.here hpath).mp hnow).resolve_left (not_not.mpr hnone)).2
    refine ⟨{ d with pmm := s₃ }, ?_, h.spent hspent rfl, ?_, hspent, rfl, rfl⟩
    · have hfreed : pmmFreePages (pageAddr p) q.pages s₂ = some s₃ := by
        rw [freeFrames] at hback
        obtain ⟨t, ht, he⟩ := Option.map_eq_some_iff.mp hback
        cases he
        exact ht
      rw [dmaRetry, if_neg hq]
      simp only [hfreed, Option.map_some]
    · rw [Given, if_neg hq]
      obtain ⟨hrun', hlow'⟩ := hspent.lowest hb ⟨hrun, hlow⟩ (hfree₃ ▸ Finset.subset_union_right)
      exact ⟨p, rfl, hrun', hlow'⟩

theorem dmaFrames_spec (hmap : GoodMap memmap) (h : DmaReady memmap root S r kernel d) (q : DmaRequest) :
    (dmaFrames q d = some (0, d) ∧ ∀ phys, ¬ Given q d phys) ∨
      ∃ phys f d₁, Handed memmap root S r kernel q d phys f d₁ := by
  by_cases hq : q.Pooled
  · exact dmaFrames_pooled h hq
  · exact dmaFrames_own hmap h hq

/-- `memset` of the new buffer. -/
theorem clear_adds (h : Tables memmap root S s) {f n : Nat} (ht : Taken root S s f n) :
    Adds memmap root S r ∅ s (s.clear (f * pageSize) (n * pageSize)) := by
  have hkept : ∀ a, ¬ (f * pageSize ≤ a ∧ a < (f + n) * pageSize) → (s.clear (f * pageSize) (n * pageSize)).mem a = s.mem a := by
    intro a ha
    rw [Nat.add_mul] at ha
    show splice s.mem (f * pageSize) (n * pageSize) (fun _ => 0) a = s.mem a
    exact splice_out _ _ (by omega)
  -- a byte of the run lies in one of its pages
  have hpage : ∀ a, f * pageSize ≤ a ∧ a < (f + n) * pageSize →
      f ≤ a / pageSize ∧ a / pageSize < f + n ∧ a / pageSize * pageSize ≤ a ∧ a < a / pageSize * pageSize + pageSize := by
    intro a ha
    simp only [pageSize] at ha ⊢
    omega
  obtain ⟨hsound, hfree⟩ := h.sound.write (m := (s.clear (f * pageSize) (n * pageSize)).mem) fun a hoff =>
    hkept a fun hin => by
      obtain ⟨h₁, h₂, h₃⟩ := hpage a hin
      exact hoff ((ht _ h₁ h₂).2.1.off h₃)
  have hview : ∀ x, IsTable s root S x → ∀ i, view (s.clear (f * pageSize) (n * pageSize)).mem x i = view s.mem x i := by
    intro x hx
    refine view_congr fun a ha => hkept a fun hin => ?_
    obtain ⟨h₁, h₂, h₃⟩ := hpage a hin
    have hxa : a / pageSize = x := by
      simp only [pageSize] at ha h₃ ⊢
      omega
    exact (ht _ h₁ h₂).2.2 (hxa ▸ hx)
  have hfree : (s.clear (f * pageSize) (n * pageSize)).freePages = s.freePages := hfree
  obtain ⟨htables, hwalk, -⟩ := @Tables.aside s (s.clear (f * pageSize) (n * pageSize)) _ _ _ _ h hsound (.clear s _ _)
    (fun x hx => by rw [hfree]; exact (h.used x hx).1) hview
  refine ⟨.clear s _ _, htables, fun hp hw => (hwalk _ _ hp).trans hw, fun p hp => absurd hp (Finset.notMem_empty p),
    fun {r' p} hp => by rw [hwalk _ _ hp]; simp, fun x hx => ?_, by rw [hfree], by rw [hfree]; rfl, fun x hx => .inl (hfree ▸ hx)⟩
  obtain ⟨r', p, hp, hw⟩ := hx
  exact .inl ⟨r', p, hp, (hwalk _ _ hp).symm.trans hw⟩

/-- `vmm_map_range` in the window: it succeeds exactly when there are pages for the tables. -/
theorem mapWindow (hmap : GoodMap memmap) (h : Tables memmap root S s) (hroot : kernel.pml4 = root r * pageSize) {virt : Nat}
    (hvirt : virt < 2 ^ 64) {phys pages flags : Nat} (hflags : flags < 2 ^ 64) (hcov : ∀ j < pages, Covers S r (pageAt virt j)) :
    ∃ mapped s' P, vmmMapRange kernel virt phys pages flags s = some (mapped, s') ∧ Adds memmap root S r P s s' ∧
      (mapped = true ↔ Provided s (root r) virt 0 pages) := by
  have hstart : Adds memmap root S r (needed s (root r) virt 0) s s := .refl h
  rcases @mapRangeFrom_exact R memmap root S r kernel virt hmap hroot hvirt phys flags hflags s pages 0 s (by rwa [Nat.zero_add])
    hstart (fun _ _ => rfl) with ⟨s', hrun, hadds⟩ | ⟨k, s', hk, hrun, hback⟩
  · rw [Nat.zero_add] at hadds
    refine ⟨true, s', _, hrun, hadds, iff_of_true rfl ?_⟩
    have := hadds.card
    rw [Provided]
    omega
  · rw [Nat.zero_add] at hk
    obtain ⟨P, hadds⟩ := hback.adds
    refine ⟨false, s', P, hrun, hadds, iff_of_false (by decide) fun hprov => ?_⟩
    have hshort := hback.short
    have hk' : Provided s (root r) virt 0 (k + 1) := hprov.mono (show k + 1 ≤ pages by omega)
    rw [Provided] at hk'
    omega

theorem metaAlloc_spec (metas : Fin metaCap → Option DmaMeta) :
    (metaAlloc metas = none ∧ ¬ ∃ i, metas i = none) ∨ ∃ i, metaAlloc metas = some i ∧ metas i = none := by
  rw [metaAlloc]
  cases hfind : (List.finRange metaCap).find? fun i => (metas i).isNone with
  | none =>
      refine .inl ⟨rfl, fun ⟨i, hi⟩ => ?_⟩
      have := List.find?_eq_none.mp hfind i (List.mem_finRange i)
      simp [hi] at this
  | some i => exact .inr ⟨i, rfl, by simpa using List.find?_some hfind⟩

/-- **One round** returns `NULL` when there are no frames, and a buffer when the lowest frames are fitting; otherwise the next
round gets the same frames, and they are no more fitting than before. -/
theorem dmaRound_spec (hmap : GoodMap memmap) (h : DmaReady memmap root S r kernel d) (q : DmaRequest) :
    ((∃ d', dmaRound kernel q d = some (.done 0, d')) ∧ ∀ phys, ¬ Given q d phys) ∨
      ∃ phys, Given q d phys ∧
        ((Fitting q d (root r) phys ∧ ∃ virt d', dmaRound kernel q d = some (.done virt, d')) ∨
          ¬ Fitting q d (root r) phys ∧ ∃ d', dmaRound kernel q d = some (.retry, d') ∧
            Again memmap root S r kernel q phys d d') := by
  rcases dmaFrames_spec hmap h q with ⟨hrun, hnone⟩ | ⟨phys, f, d₁, hd⟩
  · refine .inl ⟨⟨d, ?_⟩, hnone⟩
    rw [dmaRound, hrun]
    rfl
  refine .inr ⟨phys, hd.given, ?_⟩
  rw [dmaRound, hd.run]
  simp only [Option.bind_eq_bind, Option.bind_some, if_neg hd.ne, hd.virtBitmap]
  by_cases hsuits : q.Suits phys
  swap
  · rw [if_neg hsuits]
    obtain ⟨d', hretry, hagain⟩ := hd.back (.refl hd.tables)
    exact .inr ⟨fun hfit => hsuits hfit.1, d', hretry, hagain⟩
  rw [if_pos hsuits]
  rcases virtRangeAlloc_spec d.virtBitmap q.pages.toNat with ⟨hvirt, hfull⟩ | ⟨start, bitmap, hvirt, hlow, hfreed⟩
  · rw [hvirt]
    simp only [if_true]
    obtain ⟨d', hretry, hagain⟩ := hd.back (.refl hd.tables)
    refine .inr ⟨fun hfit => ?_, d', hretry, hagain⟩
    obtain ⟨start, hlow, -⟩ := hfit.2.1
    exact hfull start hlow.1
  have hstart : start < dmaVirtPageCount := by
    obtain ⟨h₁, h₂, -⟩ := hlow.1
    omega
  have hbase : dmaVirtBase + start * pageSize ≠ 0 ∧ dmaVirtBase + start * pageSize < 2 ^ 64 := by
    simp only [dmaVirtBase, dmaVirtPageCount, pageSize] at hstart ⊢
    omega
  have hcov := h.covers hlow
  have hwindow : (∃ start', LowestWindow d.virtBitmap q.pages.toNat start' ∧
      Provided d.pmm (root r) (dmaVirtBase + start' * pageSize) q.own q.pages.toNat) ↔
      Provided d₁.pmm (root r) (dmaVirtBase + start * pageSize) 0 q.pages.toNat := by
    rw [hd.provided hcov]
    refine ⟨fun hwin => ?_, fun hprov => ⟨start, hlow, hprov⟩⟩
    obtain ⟨start', hlow', hprov⟩ := hwin
    rwa [Nat.le_antisymm (hlow.2 start' hlow'.1) (hlow'.2 start hlow.1)]
  obtain ⟨mapped, s₂, P, hmapped, hadds, hiff⟩ :=
    @mapWindow R memmap root S r d₁.pmm kernel hmap hd.tables h.kernel _ hbase.2 phys.toNat q.pages.toNat dmaMapFlags (by decide) hcov
  rw [hvirt]
  simp only [if_neg hbase.1, hmapped, Option.bind_some]
  cases mapped with
  | false =>
      simp only [Bool.false_eq_true, if_false, hfreed]
      obtain ⟨d', hretry, hagain⟩ := hd.back hadds
      rw [← hd.virtBitmap]
      refine .inr ⟨fun hfit => ?_, d', hretry, hagain⟩
      exact Bool.false_ne_true (hiff.mpr (hwindow.mp hfit.2.1))
  | true =>
      simp only [if_true]
      rw [hd.addr]
      rcases metaAlloc_spec d₁.metas with ⟨hmeta, hfull⟩ | ⟨i, hmeta, hi⟩
      · have hclear : Adds memmap root S r ∅ s₂ (s₂.clear (f * pageSize) (q.pages.toNat * pageSize)) :=
          clear_adds hadds.tables (hadds.taken hd.taken)
        obtain ⟨s₃, hunmap, hadds₃, -, -⟩ := unmapRange_exact h.kernel q.pages.toNat (dmaVirtBase + start * pageSize)
          (s₂.clear (f * pageSize) (q.pages.toNat * pageSize)) hbase.2 hclear.tables hcov
        simp only [hmeta, hunmap, Option.bind_some, hfreed]
        obtain ⟨d', hretry, hagain⟩ := hd.back ((hadds.trans hclear).trans hadds₃)
        rw [← hd.virtBitmap]
        exact .inr ⟨fun hfit => hfull (hd.metas.symm ▸ hfit.2.2), d', hretry, hagain⟩
      · simp only [hmeta]
        exact .inl ⟨⟨hsuits, hwindow.mpr (hiff.mp rfl), i, hd.metas ▸ hi⟩, _, _, rfl⟩

/-! ### The loop -/

/-- **A round that fails once** fails for ever. -/
theorem dmaLoop_stuck (hmap : GoodMap memmap) : ∀ (fuel : Nat) {d : Dma}, DmaReady memmap root S r kernel d →
    Given q d phys → ¬ Fitting q d (root r) phys → ∃ d', dmaLoop kernel q fuel d = some (none, d') := by
  intro fuel
  induction fuel with
  | zero => exact fun {d} _ _ _ => ⟨d, rfl⟩
  | succ fuel ih =>
      intro d h hgiven hunfit
      rcases dmaRound_spec hmap h q with ⟨-, hnone⟩ | ⟨phys', hgiven', hround⟩
      · exact absurd hgiven (hnone phys)
      -- the frames are those of the last round
      obtain rfl : phys' = phys := by
        rw [Given] at hgiven hgiven'
        split at hgiven
        · next hq =>
            rw [if_pos hq] at hgiven'
            obtain ⟨i, hi, rfl⟩ := hgiven
            obtain ⟨j, hj, rfl⟩ := hgiven'
            rw [Option.some.inj (hi.symm.trans hj)]
        · next hq =>
            rw [if_neg hq] at hgiven'
            obtain ⟨p, rfl, hrun, hlow⟩ := hgiven
            obtain ⟨p', rfl, hrun', hlow'⟩ := hgiven'
            rw [Nat.le_antisymm (hlow p' hrun') (hlow' p hrun)]
      rcases hround with ⟨hfit, -⟩ | ⟨-, d', hrun, hagain⟩
      · exact absurd hfit hunfit
      obtain ⟨d'', hrest⟩ := ih hagain.ready hagain.given fun hfit => hunfit (hagain.fitting h hfit)
      exact ⟨d'', by rw [dmaLoop, hrun]; exact hrest⟩

/-- Frames that suit can be had. -/
def HasSuiting (q : DmaRequest) (d : Dma) : Prop :=
  if q.Pooled then ∃ i ∈ d.isa.free, q.Suits (d.isa.nodes.get i)
  else ∃ p, FreeRun d.pmm.isFree q.pages.toNat d.pmm.totalPages p ∧ q.Suits (pageAddr p)

/-- The call returns, and it returns `NULL` if no frames suit, the window has no such part, or no entry is free. -/
def DmaReturns (kernel : AddressSpace) (q : DmaRequest) (d : Dma) : Prop :=
  ∃ fuel virt d', dmaAlloc kernel q fuel d = some (some virt, d') ∧
    (¬ HasSuiting q d ∨ (∀ start, ¬ LowestWindow d.virtBitmap q.pages.toNat start) ∨ (∀ i, d.metas i ≠ none) → virt = 0)

/-- **`dma_alloc` terminates** exactly when the first frames that the allocators give, if they give any, are fitting. -/
theorem dma_terminates_iff (hmap : GoodMap memmap) (h : DmaReady memmap root S r kernel d) (hq : q.Accepted) :
    DmaReturns kernel q d ↔ ∀ phys, Given q d phys → Fitting q d (root r) phys := by
  constructor
  · rintro ⟨fuel, virt, d', hrun, -⟩ phys hgiven
    by_contra hunfit
    obtain ⟨d'', hloop⟩ := dmaLoop_stuck hmap fuel h hgiven hunfit
    rw [dmaAlloc, if_pos hq, hloop] at hrun
    cases hrun
  · intro hfit
    rcases dmaRound_spec hmap h q with ⟨⟨d', hrun⟩, -⟩ | ⟨phys, hgiven, ⟨hfits, virt, d', hrun⟩ | ⟨hunfit, -⟩⟩
    · refine ⟨1, 0, d', ?_, fun _ => rfl⟩
      rw [dmaAlloc, if_pos hq, dmaLoop, hrun]
      rfl
    · refine ⟨1, virt, d', by rw [dmaAlloc, if_pos hq, dmaLoop, hrun]; rfl, fun hshort => ?_⟩
      obtain ⟨hsuits, ⟨start, hlow, -⟩, i, hi⟩ := hfits
      rcases hshort with hnone | hfull | hfull
      · refine absurd ?_ hnone
        rw [Given] at hgiven
        rw [HasSuiting]
        split at hgiven
        · next hpool =>
            rw [if_pos hpool]
            obtain ⟨j, hj, rfl⟩ := hgiven
            exact ⟨j, List.mem_of_mem_head? hj, hsuits⟩
        · next hpool =>
            rw [if_neg hpool]
            obtain ⟨p, rfl, hrun, -⟩ := hgiven
            exact ⟨p, hrun, hsuits⟩
      · exact absurd hlow (hfull start)
      · exact absurd hi (hfull i)
    · exact absurd (hfit phys hgiven) hunfit

end Rounds

/-! ### Fixed inputs -/

/-- The paths to the tables of the window. -/
def WindowPath (_ : Unit) (p : List Nat) : Prop := ∃ i < dmaVirtPageCount, p <+: tablePath (dmaVirtBase + i * pageSize)

theorem windowPath_covers : ∀ i < dmaVirtPageCount, Covers WindowPath () (dmaVirtBase + i * pageSize) := by
  intro i hi
  refine ⟨⟨⟨i, hi, List.nil_prefix⟩, ⟨i, hi, ⟨_, rfl⟩⟩, ⟨i, hi, ⟨_, rfl⟩⟩, ⟨i, hi, List.prefix_rfl⟩⟩, ?_⟩
  rintro ⟨j, -, hp⟩
  have := hp.length_le
  simp [tablePath] at this

/-- The boot loader made no table for the window. -/
theorem windowPath_boot {p : List Nat} {n : Nat} (hp : WindowPath () p) (hw : walkTo bootPmm 1 p = some n) : p = [] ∧ n = 1 := by
  cases p with
  | nil => exact ⟨rfl, (Option.some.inj hw).symm⟩
  | cons i p =>
      obtain ⟨j, hj, t, ht⟩ := hp
      have hi : i = 448 := by
        have := List.head_eq_of_cons_eq ht
        rw [this, pml4Index]
        simp only [dmaVirtBase, dmaVirtPageCount, pageSize] at hj ⊢
        omega
      have hentry : child (view bootPmm.mem 1 448) = none := by decide +kernel
      rw [hi, walkTo, Radix.walk, hentry] at hw
      cases hw

theorem boot_ready : DmaReady bootMap (fun _ => 1) WindowPath () bootSpace { pmm := bootPmm } := by
  refine ⟨⟨boot_spaces.tables.sound, boot_spaces.tables.placed, ⟨?_, ?_⟩, ?_⟩, rfl, windowPath_covers, List.nodup_nil,
    fun _ hphys => absurd hphys List.not_mem_nil⟩
  · rintro _ p i ⟨j, hj, hp⟩
    exact ⟨j, hj, (List.prefix_append p [i]).trans hp⟩
  · rintro _ p _ p' n hp hp' hw hw'
    rw [(windowPath_boot hp hw).1, (windowPath_boot hp' hw').1]
    exact ⟨rfl, rfl⟩
  · rintro n ⟨_, p, hp, hw⟩
    rw [(windowPath_boot hp hw).2]
    have hpage : 1 ∉ bootPmm.freePages ∧ (1 * pageSize + pageSize ≤ bootPmm.bitmapPhys ∨
        bootPmm.bitmapPhys + bootPmm.bitmapSize ≤ 1 * pageSize) := by decide +kernel
    exact hpage

/-- A page. -/
def pageRequest (alignment : UInt64) : DmaRequest := ⟨4096, alignment, 0, 0⟩

theorem pageRequest_own {alignment : UInt64} : ¬ (pageRequest alignment).Pooled := fun h => by cases h.1

theorem dmaInit_ready_boot : ∃ d, dmaInit bootPmm = some d ∧ DmaReady bootMap (fun _ => 1) WindowPath () bootSpace d ∧
    d.isa.Low ∧ d.pages = bootPmm.freePages.card :=
  dmaInit_ready bootMap_good boot_ready.tables rfl windowPath_covers

/-- The lowest free page. -/
theorem boot_given {alignment phys : UInt64} : Given (pageRequest alignment) { pmm := bootPmm } phys ↔ phys = 0x11000 := by
  have hlow : FreeRun bootPmm.isFree 1 bootPmm.totalPages 0x11 ∧
      ∀ p, FreeRun bootPmm.isFree 1 bootPmm.totalPages p → 0x11 ≤ p := by
    have hb := boot_ready.tables.placed
    refine ⟨(Pmm.freeRun_one hb).mpr (by decide +kernel), fun p hp => ?_⟩
    have hnone : ∀ p < 0x11, p ∉ bootPmm.freePages := by decide +kernel
    by_contra hlt
    exact hnone p (by omega) ((Pmm.freeRun_one hb).mp hp)
  have hpages : (pageRequest alignment).pages.toNat = 1 := (by decide : ((4096 + 4095) / 4096 : UInt64).toNat = 1)
  rw [Given, if_neg pageRequest_own, hpages]
  constructor
  · rintro ⟨p, rfl, hrun, hleast⟩
    rw [show p = 0x11 from Nat.le_antisymm (hleast _ hlow.1) (hlow.2 p hrun)]
    rfl
  · rintro rfl
    exact ⟨0x11, rfl, hlow⟩

/-- A page that need not be aligned to more than a page. -/
theorem dma_terminates_boot : DmaReturns bootSpace (pageRequest 4096) { pmm := bootPmm } := by
  refine (@dma_terminates_iff Unit bootMap (fun _ => 1) WindowPath () bootSpace (pageRequest 4096) { pmm := bootPmm } bootMap_good
    boot_ready (by decide)).mpr fun phys hgiven => ?_
  rw [boot_given.mp hgiven]
  have hwindow : LowestWindow (fun _ => false) 1 0 := ⟨⟨by decide, by decide, fun _ _ => rfl⟩, fun _ _ => Nat.zero_le _⟩
  exact ⟨by decide, ⟨0, hwindow, by decide +kernel⟩, ⟨0, by decide⟩, rfl⟩

/-- The lowest free page is an odd one, and two pages in a row are asked to begin at an even one: the loop does not end. -/
theorem dma_loops_forever :
    DmaReady bootMap (fun _ => 1) WindowPath () bootSpace { pmm := bootPmm } ∧ (pageRequest 8192).Accepted ∧
      HasSuiting (pageRequest 8192) { pmm := bootPmm } ∧
      ∀ fuel, ∃ d', dmaAlloc bootSpace (pageRequest 8192) fuel { pmm := bootPmm } = some (none, d') := by
  refine ⟨boot_ready, by decide, ?_, fun fuel => ?_⟩
  · rw [HasSuiting, if_neg pageRequest_own]
    exact ⟨0x12, (Pmm.freeRun_one boot_ready.tables.placed).mpr (by decide +kernel), by decide⟩
  · obtain ⟨d', hrun⟩ := dmaLoop_stuck bootMap_good fuel boot_ready (boot_given.mpr rfl) fun hfit =>
      absurd hfit.1 (by decide : ¬ (pageRequest 8192).Suits 0x11000)
    exact ⟨d', by rw [dmaAlloc, if_pos (by decide : (pageRequest 8192).Accepted), hrun]⟩

end Blackmount.Mem
