import Blackmount.Mem.HeapBlocks

/-!
# Mem — the kernel heap over whole runs

Callers allocate, free what they got, and write inside their payloads.

* `HeapCorrect`: the blocks tile the heap with no two free neighbours, payloads are aligned, large
  enough and apart from each other and from all headers, and `kmalloc` fails only without room.
* `heap_sound`: it holds after every step of every run.
-/

namespace Blackmount.Mem
open Blackmount.Lib

inductive HeapOp where
  | kmalloc (size : Nat) (mapped : Bool)
  | kfree (ptr : Nat)
  | defrag
  | store (addr : Nat) (value : UInt8)

/-- The heap, what the last call returned, and the live allocations with the sizes asked for. -/
structure HeapState where
  heap : KHeap
  returned : Nat := 0
  live : List (Nat × Nat) := []

def heapStep (s : HeapState) : HeapOp → Option HeapState
  | .kmalloc size mapped => (kmalloc size mapped s.heap).map fun q =>
      ⟨q.2, q.1, if q.1 = 0 then s.live else (q.1, size) :: s.live⟩
  | .kfree ptr => (kfree ptr s.heap).map fun h => ⟨h, 0, s.live.filter fun q => q.1 ≠ ptr⟩
  | .defrag => (defragHeap s.heap).map fun h => ⟨h, 0, s.live⟩
  | .store addr value => some { s with heap := { s.heap with mem := Function.update s.heap.mem addr value } }

/-- The address is in the payload of the allocation at `p`. -/
def Payload (h : KHeap) (p a : Nat) : Prop := p ≤ a ∧ a < p + block.size h.mem (p - block.hdr)

instance (h : KHeap) (p a : Nat) : Decidable (Payload h p a) := by delta Payload; infer_instance

/-- The callers ask for 1 to `2^64 - 16` bytes, free only what is live, and write only there. -/
def HeapUse (s : HeapState) : HeapOp → Prop
  | .kmalloc size _ => 1 ≤ size ∧ size ≤ 2 ^ 64 - 16
  | .kfree ptr => ptr = 0 ∨ ∃ q ∈ s.live, q.1 = ptr
  | .defrag => True
  | .store addr _ => ∃ q ∈ s.live, Payload s.heap q.1 addr

instance (s : HeapState) (o : HeapOp) : Decidable (HeapUse s o) := by
  apply HeapOp.casesOn (motive := fun o => Decidable (HeapUse s o)) o <;> intros <;>
    (delta HeapUse; infer_instance)

/-- The heap as a whole, with the list of its blocks. -/
structure HeapGood (s : HeapState) (l : List Blk) : Prop where
  first : s.heap.freeList = s.heap.heapStart
  listed : block.Seg s.heap.mem s.heap.freeList l 0
  ordered : l.Pairwise fun b c => b.addr < c.addr
  tiles : block.Tiles s.heap.heapStart l (s.heap.heapStart + s.heap.heapSize)
  noFreePair : Layout.NoFreePair l
  aligned : ∀ q ∈ s.live, 16 ∣ q.1
  enough : ∀ q ∈ s.live, q.2 ≤ block.size s.heap.mem (q.1 - block.hdr)
  apart : s.live.Pairwise fun q r => ∀ a, ¬ (Payload s.heap q.1 a ∧ Payload s.heap r.1 a)
  headers : ∀ q ∈ s.live, ∀ b ∈ l, ∀ a, Payload s.heap q.1 a → ¬ block.InHeader b.addr a
  stats : ∃ st, getHeapStats s.heap = some st ∧ st.usedSize + st.freeSize + 32 * st.numBlocks = st.totalSize

/-- What holds after a step: an initialized heap is good, and `kmalloc` returned `NULL` only when no free
block had room for the size rounded up to 16. -/
def HeapCorrect (s : HeapState) (o : HeapOp) (s' : HeapState) : Prop :=
  (s'.heap.heapInitialized = true → ∃ l, HeapGood s' l) ∧
    match o with
    | .kmalloc size mapped => s'.returned = 0 →
        ∀ l, block.Seg (initHeap mapped s.heap).mem (initHeap mapped s.heap).freeList l 0 →
          ∀ b ∈ l, b.free = true → b.size < (size + 15) / 16 * 16
    | _ => True

/-! ### The invariant -/

/-- Each live allocation has a block of its own, in use. -/
structure Live (l : List Blk) (live : List (Nat × Nat)) : Prop where
  block : ∀ q ∈ live, ∃ b ∈ l, b.free = false ∧ b.addr + 32 = q.1 ∧ q.2 ≤ b.size ∧ 1 ≤ q.2
  distinct : (live.map Prod.fst).Nodup

/-- Before the heap is there, nothing is live. -/
structure NoHeap (s : HeapState) : Prop where
  uninitialized : s.heap.heapInitialized = false
  empty : s.heap.freeList = 0
  live : s.live = []

def HeapInv (s : HeapState) : Prop :=
  NoHeap s ∨ s.heap.heapInitialized = true ∧ ∃ l, Blocks s.heap l ∧ Live l s.live

/-! ### Statistics -/

theorem statsLoop_spec {m : Bytes} : ∀ {fuel : Nat} {l : List Blk} {p : Nat} (st : HeapStats),
    block.Seg m p l 0 → l.length < fuel → ∃ st', statsLoop m fuel p st = some st' ∧
      st'.totalSize = st.totalSize ∧ st'.usedSize + st'.freeSize + 32 * st'.numBlocks =
        st.usedSize + st.freeSize + 32 * st.numBlocks + (l.map fun b => block.hdr + b.size).sum := by
  intro fuel
  induction fuel with
  | zero => intro l p st _ hlen; omega
  | succ fuel ih =>
      intro l p st hseg hlen
      cases l with
      | nil =>
          cases hseg
          exact ⟨st, by simp [statsLoop], rfl, by simp⟩
      | cons b l =>
          obtain ⟨rfl, hne, hs, hf, hrest⟩ := hseg
          simp only [statsLoop, hne, if_false, hs]
          obtain ⟨st', hr, htotal, hsum⟩ := ih _ hrest (by simp only [List.length_cons] at hlen; omega)
          refine ⟨st', hr, ?_, ?_⟩
          · rw [htotal]
            split <;> rfl
          · rw [hsum, List.map_cons, List.sum_cons, show block.hdr = 32 from rfl]
            split <;> (simp only; omega)

theorem Blocks.stats {h : KHeap} {l : List Blk} (hb : Blocks h l) (hinit : h.heapInitialized = true) :
    ∃ st, getHeapStats h = some st ∧ st.usedSize + st.freeSize + 32 * st.numBlocks = st.totalSize := by
  obtain ⟨st, hr, htotal, hsum⟩ := statsLoop_spec { totalSize := h.heapSize } hb.listed hb.length_lt
  have := hb.tiles.total
  refine ⟨st, by rw [getHeapStats, if_neg (by simp [hinit])]; exact hr, ?_⟩
  simp only at htotal hsum
  omega

/-! ### The invariant says what is claimed -/

section Good

variable {s : HeapState} {l : List Blk}

theorem payload_iff {q : Nat × Nat} {b : Blk} (hb : Blocks s.heap l) (hmem : b ∈ l) (hq : b.addr + 32 = q.1)
    (a : Nat) : Payload s.heap q.1 a ↔ b.addr + 32 ≤ a ∧ a < b.addr + 32 + b.size := by
  rw [Payload, ← hq, show b.addr + 32 - block.hdr = b.addr from Nat.add_sub_cancel _ _,
    (hb.listed.mem b hmem).2.1]

theorem Blocks.good (hb : Blocks s.heap l) (hinit : s.heap.heapInitialized = true) (hlive : Live l s.live) :
    HeapGood s l := by
  have hord := hb.ordered
  have hfirst : s.heap.freeList = s.heap.heapStart := by
    cases l with
    | nil =>
        have := hb.tiles
        simp only [Layout.Tiles, hb.size, defaultHeapSize] at this
        omega
    | cons b l => exact hb.listed.1.trans hb.tiles.1
  refine ⟨hfirst, hb.listed, hord.imp fun h => ?_, hb.tiles, hb.noFreePair, fun q hq => ?_, fun q hq => ?_,
    ?_, fun q hq b hmem a ha hin => ?_, hb.stats hinit⟩
  · simp only [show block.hdr = 32 from rfl] at h
    omega
  · obtain ⟨b, hmem, -, hq, -⟩ := hlive.block q hq
    have := (hb.aligned b hmem).1
    omega
  · obtain ⟨b, hmem, -, hq, hsize, -⟩ := hlive.block q hq
    rw [← hq, show b.addr + 32 - block.hdr = b.addr from Nat.add_sub_cancel _ _, (hb.listed.mem b hmem).2.1]
    exact hsize
  · refine (List.pairwise_map.mp hlive.distinct).imp_of_mem fun {q r} hq hr hne a => ?_
    obtain ⟨b, hbm, -, hbq, -⟩ := hlive.block q hq
    obtain ⟨c, hcm, -, hcr, -⟩ := hlive.block r hr
    rw [payload_iff hb hbm hbq, payload_iff hb hcm hcr]
    rintro ⟨h₁, h₂⟩
    have hbc : b ≠ c := by
      rintro rfl
      exact hne (hbq.symm.trans hcr)
    rcases hord.either hcm hbm hbc with h | h <;>
      (simp only [show block.hdr = 32 from rfl] at h; omega)
  · obtain ⟨c, hcm, -, hcq, -⟩ := hlive.block q hq
    rw [payload_iff hb hcm hcq] at ha
    simp only [Layout.InHeader, show block.hdr = 32 from rfl] at hin
    by_cases e : b = c
    · rw [e] at hin
      omega
    · rcases hord.either hcm hmem e with h | h <;>
        (simp only [show block.hdr = 32 from rfl] at h; omega)

end Good

/-! ### Steps -/

section Steps

variable {s : HeapState} {l : List Blk}

theorem align_eq {n : Nat} (h : n ≤ 2 ^ 64 - 16) : align n = (n + 15) / 16 * 16 := by
  simp only [align]
  omega

theorem Live.mono {l' : List Blk} {live live' : List (Nat × Nat)} (h : Live l live)
    (hsub : live'.Sublist live) (hkept : ∀ q ∈ live', ∀ b ∈ l, b.free = false → b.addr + 32 = q.1 → b ∈ l') :
    Live l' live' := by
  refine ⟨fun q hq => ?_, h.distinct.sublist (hsub.map _)⟩
  obtain ⟨b, hb, hu, ha, hrest⟩ := h.block q (hsub.subset hq)
  exact ⟨b, hkept q hq b hb hu ha, hu, ha, hrest⟩

/-- A fresh heap is one free block. -/
theorem blocks_initHeap {h : KHeap} (hinit : h.heapInitialized = false) :
    Blocks (initHeap true h) [⟨heapVirtualBase, defaultHeapSize - 32, true⟩] ∧
      (initHeap true h).heapInitialized = true := by
  have heq : initHeap true h = { h with
      heapStart := heapVirtualBase, heapSize := defaultHeapSize, freeList := heapVirtualBase,
      heapInitialized := true
      mem := block.setHeader (wr32 h.mem heapVirtualBase blockMagic) heapVirtualBase (defaultHeapSize - 32) true 0 } := by
    simp [initHeap, hinit, block]
  obtain ⟨hs, hf, hn⟩ := Layout.setHeader_spec (L := block) (m := wr32 h.mem heapVirtualBase blockMagic)
    (a := heapVirtualBase) (s := defaultHeapSize - 32) (n := 0) (f := true) (by decide) (by decide)
  have htiles : block.Tiles heapVirtualBase [⟨heapVirtualBase, defaultHeapSize - 32, true⟩]
      (heapVirtualBase + defaultHeapSize) := by
    refine ⟨rfl, ?_⟩
    simp [Layout.Tiles, block, heapVirtualBase, defaultHeapSize]
  rw [heq]
  refine ⟨⟨⟨rfl, rfl, ⟨rfl, by simp [heapVirtualBase], hs, hf, hn⟩, htiles, fun b hb => ?_, fun b hb => ?_⟩,
    List.isChain_singleton _⟩, rfl⟩
  · rw [List.mem_singleton.mp hb, Layout.setHeader, magic_setNext (.inl rfl), magic_setFree (.inl rfl),
      magic_setSize (.inl rfl), magic, rd32_wr32]
    rfl
  · rw [List.mem_singleton.mp hb]
    decide

/-- `kmalloc` in an initialized heap. -/
theorem HeapInv.kmalloc {h : KHeap} (hb : Blocks h l)
    {live : List (Nat × Nat)} (hlive : Live l live) {size : Nat} (h1 : 1 ≤ size) (hsize : size ≤ 2 ^ 64 - 16) :
    ∃ r m l', kmallocLoop h.mem (align size) h.rounds h.freeList = some (r, m) ∧
      Blocks { h with mem := m } l' ∧ Live l' (if r = 0 then live else (r, size) :: live) ∧
      (r = 0 → ∀ b ∈ l, b.free = true → b.size < (size + 15) / 16 * 16) := by
  have halign := align_eq hsize
  rcases kmallocLoop_spec (align size) hb.listed hb.marked hb.length_lt with
    ⟨hr, hnone⟩ | ⟨pre, b, post, rfl, hfit, hr⟩
  · refine ⟨0, h.mem, l, hr, hb, hlive, fun _ b hmem hfree => ?_⟩
    rw [← halign]
    by_contra hge
    exact hnone b hmem ⟨hfree, by omega⟩
  · have hne : b.addr + 32 ≠ 0 := by omega
    refine ⟨_, _, _, hr, hb.take hfit (by rw [halign]; exact Nat.dvd_mul_left _ _), ?_, fun e => absurd e hne⟩
    rw [if_neg hne]
    have hkept : ∀ c ∈ pre ++ b :: post, c.free = false → c ∈ pre ++ (takenBlock (align size) b ++ post) := by
      intro c hc hu
      rcases Blk.mem_append_cons hc with rfl | hc
      · rw [hfit.1] at hu
        cases hu
      · simp only [List.mem_append] at hc ⊢
        tauto
    have hold := hlive.mono (List.Sublist.refl live) fun q _ c hc hu _ => hkept c hc hu
    refine ⟨fun q hq => ?_, ?_⟩
    · rcases List.mem_cons.mp hq with rfl | hq
      · have hfit := hfit.2
        refine ⟨⟨b.addr, if align size + 48 ≤ b.size then align size else b.size, false⟩, ?_, rfl, rfl, ?_, h1⟩
        · simp only [takenBlock]
          split <;> simp
        · simp only
          split <;> omega
      · exact hold.block q hq
    · refine List.nodup_cons.mpr ⟨fun hmem => ?_, hold.distinct⟩
      obtain ⟨q, hq, hqa⟩ := List.mem_map.mp hmem
      obtain ⟨c, hc, hu, hca, -⟩ := hlive.block q hq
      have : c = b := by
        by_contra hcb
        have hord := hb.ordered.either (by simp) hc hcb
        simp only [show block.hdr = 32 from rfl] at hord
        simp only at hqa
        omega
      rw [this, hfit.1] at hu
      cases hu

/-- A write inside a payload leaves the list alone. -/
theorem HeapInv.store (hb : Blocks s.heap l) (hlive : Live l s.live) {a : Nat} {v : UInt8}
    (ha : ∃ q ∈ s.live, Payload s.heap q.1 a) :
    Blocks { s.heap with mem := Function.update s.heap.mem a v } l := by
  obtain ⟨q, hq, ha⟩ := ha
  obtain ⟨c, hcm, -, hcq, -⟩ := hlive.block q hq
  rw [payload_iff hb hcm hcq] at ha
  have hout : ∀ b ∈ l, ∀ j, block.InHeader b.addr j → Function.update s.heap.mem a v j = s.heap.mem j := by
    intro b hmem j hj
    refine Function.update_of_ne ?_ _ _
    rintro rfl
    simp only [Layout.InHeader, show block.hdr = 32 from rfl] at hj
    by_cases e : b = c
    · rw [e] at hj
      omega
    · have := hb.ordered.either hcm hmem e
      simp only [show block.hdr = 32 from rfl] at this
      omega
  refine ⟨⟨hb.start, hb.size, hb.listed.congr hout, hb.tiles, fun b hmem => ?_, hb.aligned⟩, hb.noFreePair⟩
  rw [← hb.marked b hmem]
  exact magic_congr fun j hl hr => hout b hmem j ⟨hl, by simp only [block]; omega⟩

/-- `kfree` of a live allocation. -/
theorem HeapInv.kfree (hb : Blocks s.heap l) (hinit : s.heap.heapInitialized = true) (hlive : Live l s.live)
    {ptr : Nat} (hptr : ∃ q ∈ s.live, q.1 = ptr) :
    ∃ m l', Mem.kfree ptr s.heap = some { s.heap with mem := m } ∧ Blocks { s.heap with mem := m } l' ∧
      Live l' (s.live.filter fun q => q.1 ≠ ptr) := by
  obtain ⟨q, hq, rfl⟩ := hptr
  obtain ⟨b, hmem, hu, hbq, hsize, h1⟩ := hlive.block q hq
  obtain ⟨pre, post, rfl⟩ := List.append_of_mem hmem
  obtain ⟨m, l', hr, hblocks, hkept⟩ := hb.free hinit hu (by omega)
  rw [hbq] at hr
  refine ⟨m, l', hr, hblocks, hlive.mono List.filter_sublist fun r hr c hc hcu hca => ?_⟩
  have hne : r.1 ≠ q.1 := by simpa using (List.mem_filter.mp hr).2
  rcases Blk.mem_append_cons hc with rfl | hc
  · exact absurd (hca.symm.trans hbq) hne
  · exact hkept c hc hcu

/-- What a step has to show. -/
def StepGood (s : HeapState) (o : HeapOp) : Prop :=
  ∃ s', heapStep s o = some s' ∧ HeapInv s' ∧ HeapCorrect s o s'

/-- `kmalloc`, once it has looked whether the heap is there. -/
theorem HeapInv.step_kmalloc {size : Nat} {mapped : Bool} (h : HeapInv s) (h1 : 1 ≤ size)
    (hsize : size ≤ 2 ^ 64 - 16) : StepGood s (.kmalloc size mapped) := by
  obtain ⟨h', e⟩ : ∃ h', h' = initHeap mapped s.heap := ⟨_, rfl⟩
  have hthere : h'.heapInitialized = false ∧ h'.freeList = 0 ∧ s.live = [] ∨
      h'.heapInitialized = true ∧ ∃ l, Blocks h' l ∧ Live l s.live := by
    rw [e]
    rcases h with hno | ⟨hinit, l, hb, hlive⟩
    · cases mapped with
      | true =>
          obtain ⟨hb, hinit⟩ := blocks_initHeap hno.uninitialized
          exact .inr ⟨hinit, _, hb, by rw [hno.live]; exact ⟨by simp, by simp⟩⟩
      | false =>
          have : initHeap false s.heap =
              { s.heap with heapStart := heapVirtualBase, heapSize := defaultHeapSize } := by
            simp [initHeap, hno.uninitialized]
          rw [this]
          exact .inl ⟨hno.uninitialized, hno.empty, hno.live⟩
    · have : initHeap mapped s.heap = s.heap := by simp [initHeap, hinit]
      rw [this]
      exact .inr ⟨hinit, l, hb, hlive⟩
  rcases hthere with ⟨hinit, hempty, hnolive⟩ | ⟨hinit, l, hb, hlive⟩
  · refine ⟨⟨h', 0, s.live⟩, ?_, .inl ⟨hinit, hempty, hnolive⟩, fun hi => ?_, fun _ l hl b hmem => ?_⟩
    · simp [heapStep, Mem.kmalloc, ← e, hinit]
    · rw [hinit] at hi
      cases hi
    · rw [← e, hempty] at hl
      cases l with
      | nil => simp at hmem
      | cons c l => exact absurd rfl hl.2.1
  · obtain ⟨r, m, l', hr, hb', hlive', hnull⟩ := HeapInv.kmalloc hb hlive h1 hsize
    refine ⟨⟨{ h' with mem := m }, r, if r = 0 then s.live else (r, size) :: s.live⟩, ?_,
      .inr ⟨hinit, l', hb', hlive'⟩, fun _ => ⟨l', hb'.good hinit hlive'⟩, fun hr l₁ hl₁ => ?_⟩
    · simp [heapStep, Mem.kmalloc, ← e, hinit, hr, show size ≠ 0 by omega]
    · rw [← e] at hl₁
      rw [hl₁.unique hb.listed]
      exact hnull hr

/-- **Every step that keeps to the rules is right.** -/
theorem HeapInv.step {o : HeapOp} (h : HeapInv s) (ho : HeapUse s o) : StepGood s o := by
  cases o with
  | kmalloc size mapped => exact h.step_kmalloc ho.1 ho.2
  | kfree ptr =>
      rcases h with hno | ⟨hinit, l, hb, hlive⟩
      · have hr : Mem.kfree ptr s.heap = some s.heap := by
          simp [Mem.kfree, hno.uninitialized]
        refine ⟨⟨s.heap, 0, s.live.filter fun q => q.1 ≠ ptr⟩, by simp [heapStep, hr],
          .inl ⟨hno.uninitialized, hno.empty, by simp [hno.live]⟩, fun hi => ?_, trivial⟩
        rw [hno.uninitialized] at hi
        cases hi
      · rcases ho with rfl | hptr
        · have hlive' : Live l (s.live.filter fun q => q.1 ≠ 0) :=
            hlive.mono List.filter_sublist fun _ _ c hc _ _ => hc
          exact ⟨⟨s.heap, 0, _⟩, by simp [heapStep, Mem.kfree], .inr ⟨hinit, l, hb, hlive'⟩,
            fun _ => ⟨l, Blocks.good (s := ⟨s.heap, 0, _⟩) hb hinit hlive'⟩, trivial⟩
        · obtain ⟨m, l', hr, hb', hlive'⟩ := HeapInv.kfree hb hinit hlive hptr
          exact ⟨⟨{ s.heap with mem := m }, 0, _⟩, by rw [heapStep, hr]; rfl, .inr ⟨hinit, l', hb', hlive'⟩,
            fun _ => ⟨l', Blocks.good (s := ⟨{ s.heap with mem := m }, 0, _⟩) hb' hinit hlive'⟩, trivial⟩
  | defrag =>
      rcases h with hno | ⟨hinit, l, hb, hlive⟩
      · refine ⟨⟨s.heap, 0, s.live⟩, by simp [heapStep, defragHeap, hno.uninitialized],
          .inl ⟨hno.uninitialized, hno.empty, hno.live⟩, fun hi => ?_, trivial⟩
        rw [hno.uninitialized] at hi
        cases hi
      · have hr : defragHeap s.heap = some s.heap := by
          rw [defragHeap, if_neg (by simp [hinit]),
            Layout.mergePass_noFreePair hb.listed hb.noFreePair hb.length_lt]
          rfl
        exact ⟨⟨s.heap, 0, s.live⟩, by rw [heapStep, hr]; rfl, .inr ⟨hinit, l, hb, hlive⟩,
          fun _ => ⟨l, Blocks.good (s := ⟨s.heap, 0, s.live⟩) hb hinit hlive⟩, trivial⟩
  | store addr value =>
      rcases h with hno | ⟨hinit, l, hb, hlive⟩
      · obtain ⟨q, hq, -⟩ := ho
        rw [hno.live] at hq
        simp at hq
      · have hb' := HeapInv.store (v := value) hb hlive ho
        exact ⟨_, rfl, .inr ⟨hinit, l, hb', hlive⟩, fun _ => ⟨l, Blocks.good (s := { s with heap :=
          { s.heap with mem := Function.update s.heap.mem addr value } }) hb' hinit hlive⟩, trivial⟩

end Steps

/-- After `init_heap`, whatever memory held before. -/
def heapBoot (mapped : Bool) (mem : Bytes) : HeapState := { heap := initHeap mapped { mem := mem } }

/-- **The kernel heap over whole runs.**  From `init_heap` on, in every run of callers that keep to the
rules, every step returns and the heap is good after it. -/
theorem heap_sound (mapped : Bool) (mem : Bytes) {os : List HeapOp}
    (huse : Meets heapStep HeapUse (heapBoot mapped mem) os) :
    (mapped = true → ∃ l, HeapGood (heapBoot mapped mem) l) ∧
      Along heapStep HeapCorrect (heapBoot mapped mem) os ∧
      (run heapStep (heapBoot mapped mem) os).isSome := by
  have hinit : HeapInv (heapBoot mapped mem) := by
    cases mapped with
    | true =>
        obtain ⟨hb, hi⟩ := blocks_initHeap (h := { mem := mem }) rfl
        exact .inr ⟨hi, _, hb, by simp [heapBoot], by simp [heapBoot]⟩
    | false => exact .inl ⟨rfl, rfl, rfl⟩
  refine ⟨?_, along_of_inv (fun s o s' hI hC hs => ?_) hinit huse, ?_⟩
  · rintro rfl
    obtain ⟨hb, hi⟩ := blocks_initHeap (h := { mem := mem }) rfl
    exact ⟨_, Blocks.good (s := heapBoot true mem) hb hi ⟨by simp [heapBoot], by simp [heapBoot]⟩⟩
  · obtain ⟨s₁, h₁, hI₁, hok⟩ := hI.step hC
    rw [hs] at h₁
    cases h₁
    exact ⟨hI₁, hok⟩
  · obtain ⟨s', hs'⟩ := run_defined (fun s o hI hC => by
      obtain ⟨s₁, h₁, hI₁, -⟩ := HeapInv.step hI hC
      exact ⟨s₁, h₁, hI₁⟩) hinit huse
    rw [hs']
    rfl

/-- Three allocations, a write into the second, and all freed: the middle, the first, the last. -/
def heapRun : List HeapOp :=
  [.kmalloc 24 true, .kmalloc 100 true, .kmalloc 16 true, .store (heapVirtualBase + 100) 7,
    .kfree (heapVirtualBase + 96), .kfree 0, .kmalloc 32 true, .defrag, .kfree (heapVirtualBase + 32),
    .kfree (heapVirtualBase + 96), .kmalloc (2 ^ 63) true]

theorem heap_sound_heapRun :
    Meets heapStep HeapUse (heapBoot true fun _ => 0) heapRun ∧
      Along heapStep HeapCorrect (heapBoot true fun _ => 0) heapRun := by
  have huse : Meets heapStep HeapUse (heapBoot true fun _ => 0) heapRun := by decide +kernel
  exact ⟨huse, (heap_sound true _ huse).2.1⟩

end Blackmount.Mem
