import Blackmount.Mem.Heap

/-!
# Mem — the blocks of the kernel heap

The list of blocks that the heap's memory spells, and what each function does to it.

* `Spelled`: the blocks tile the heap, and every header is marked.  Freeing, splitting and joining a
  block in memory does the same to the list (`Spelled.setFree`, `Spelled.split`, `Spelled.joinNext`).
* `Blocks`: besides, no two neighbours are both free; `Blocks.take` and `Blocks.free` are the lists
  after `kmalloc` and `kfree`.
-/

namespace Blackmount.Mem
open Blackmount.Lib

/-- What the heap's memory spells. -/
structure Spelled (h : KHeap) (l : List Blk) : Prop where
  start : h.heapStart = heapVirtualBase
  size : h.heapSize = defaultHeapSize
  listed : block.Seg h.mem h.freeList l 0
  tiles : block.Tiles h.heapStart l (h.heapStart + h.heapSize)
  marked : ∀ b ∈ l, magic h.mem b.addr = blockMagic
  aligned : ∀ b ∈ l, 16 ∣ b.addr ∧ 16 ∣ b.size

/-- No two neighbours are both free. -/
structure Blocks (h : KHeap) (l : List Blk) : Prop extends Spelled h l where
  noFreePair : Layout.NoFreePair l

section Frames

variable {m : Bytes} {a p v : Nat}

/-- The marks of other blocks, and its own, are left alone by the writes to a header's fields. -/
theorem magic_congr {m' : Bytes} (h : ∀ j, a ≤ j → j < a + 4 → m' j = m j) : magic m' a = magic m a :=
  rd32_congr h

theorem magic_setFree {v : Bool} (h : a = p ∨ ∀ j, block.InHeader a j → ¬ block.InHeader p j) :
    magic (block.setFree m p v) a = magic m a := by
  refine magic_congr fun j hl hr => ?_
  rcases h with rfl | h
  · exact wr32_out _ _ (by simp only [block]; omega)
  · exact Layout.setFree_out (h j ⟨hl, by simp only [block]; omega⟩)

theorem magic_setSize (h : a = p ∨ ∀ j, block.InHeader a j → ¬ block.InHeader p j) :
    magic (block.setSize m p v) a = magic m a := by
  refine magic_congr fun j hl hr => ?_
  rcases h with rfl | h
  · exact wr64_out _ _ (by simp only [block]; omega)
  · exact Layout.setSize_out (h j ⟨hl, by simp only [block]; omega⟩)

theorem magic_setNext (h : a = p ∨ ∀ j, block.InHeader a j → ¬ block.InHeader p j) :
    magic (block.setNext m p v) a = magic m a := by
  refine magic_congr fun j hl hr => ?_
  rcases h with rfl | h
  · exact wr64_out _ _ (by simp only [block]; omega)
  · exact Layout.setNext_out (h j ⟨hl, by simp only [block]; omega⟩)

theorem magic_join (h : a = p ∨ ∀ j, block.InHeader a j → ¬ block.InHeader p j) :
    magic (block.join m p) a = magic m a := by
  rw [Layout.join, magic_setNext h, magic_setSize h]

theorem magic_splitAt {n : Nat} (h : a = p ∨ ∀ j, block.InHeader a j → ¬ block.InHeader p j)
    (hn : a = p + block.hdr + n ∨ ∀ j, block.InHeader a j → ¬ block.InHeader (p + block.hdr + n) j) :
    magic (block.splitAt m p n) a = magic m a := by
  rw [Layout.splitAt, magic_setNext h, magic_setSize h, Layout.setHeader, magic_setNext hn, magic_setFree hn,
    magic_setSize hn]

end Frames

theorem Blk.mem_append_cons {l l' : List Blk} {b c : Blk} (h : c ∈ l ++ b :: l') : c = b ∨ c ∈ l ++ l' := by
  simp only [List.mem_append, List.mem_cons] at h ⊢
  tauto

namespace Spelled

variable {h : KHeap} {l pre post : List Blk} {b : Blk}

theorem ordered (hb : Spelled h l) : block.Ordered l := hb.tiles.ordered

theorem bounded (hb : Spelled h l) {b : Blk} (hmem : b ∈ l) :
    heapVirtualBase ≤ b.addr ∧ b.addr + 32 + b.size ≤ heapVirtualBase + defaultHeapSize := by
  have := hb.tiles.inside.2 b hmem
  rw [hb.start, hb.size] at this
  exact this

/-- There are no more blocks than rounds. -/
theorem length_lt (hb : Spelled h l) : l.length < h.rounds := by
  have hlen := hb.tiles.length
  simp only [KHeap.rounds, show block.hdr = 32 from rfl] at hlen ⊢
  omega

/-- The headers of the other blocks do not overlap with this one. -/
theorem apart (hb : Spelled h (pre ++ b :: post)) {c : Blk} (hc : c ∈ pre ++ post) :
    ∀ j, block.InHeader c.addr j → ¬ block.InHeader b.addr j :=
  hb.ordered.header c hc

theorem others (hb : Spelled h (pre ++ b :: post)) {c : Blk} (hc : c ∈ pre ++ post) :
    magic h.mem c.addr = blockMagic ∧ 16 ∣ c.addr ∧ 16 ∣ c.size := by
  have hmem : c ∈ pre ++ b :: post := by
    simp only [List.mem_append, List.mem_cons] at hc ⊢
    tauto
  exact ⟨hb.marked c hmem, hb.aligned c hmem⟩

theorem setFree (hb : Spelled h (pre ++ b :: post)) (v : Bool) :
    Spelled { h with mem := block.setFree h.mem b.addr v } (pre ++ { b with free := v } :: post) := by
  have hlisted := hb.listed.mem b (by simp)
  refine ⟨hb.start, hb.size, ?_, ?_, fun c hc => ?_, fun c hc => ?_⟩
  · exact hb.listed.replace hb.ordered (fun j hj => Layout.setFree_out hj) rfl
      (by rw [Layout.size_setFree, hlisted.2.1]) (by rw [Layout.free_setFree]) (by rw [Layout.next_setFree])
  · obtain ⟨c, hpre, hrest⟩ := Layout.Tiles.append.mp hb.tiles
    exact Layout.Tiles.append.mpr ⟨c, hpre, hrest⟩
  · rcases Blk.mem_append_cons hc with rfl | hc
    · rw [magic_setFree (.inl rfl)]
      exact hb.marked b (by simp)
    · rw [magic_setFree (.inr (hb.apart hc))]
      exact (hb.others hc).1
  · rcases Blk.mem_append_cons hc with rfl | hc
    · exact hb.aligned b (by simp)
    · exact (hb.others hc).2

/-- A block is joined with the next one, when both are free. -/
theorem joinNext (hb : Spelled h (pre ++ b :: post)) :
    Spelled { h with mem := block.joinNext h.mem b.addr } (pre ++ block.joinHead (b :: post)) := by
  obtain ⟨c, hpre, htail⟩ := Layout.Seg.append.mp hb.listed
  obtain rfl : c = b.addr := htail.1
  have hmagic : ∀ c ∈ pre ++ b :: post, magic (block.joinNext h.mem b.addr) c.addr = blockMagic := by
    intro c hc
    have hapart := hb.ordered.apart (b := b) (by simp) hc
    rw [← hb.marked c hc, Layout.joinNext]
    split
    · exact magic_join hapart
    · rfl
  refine ⟨hb.start, hb.size, ?_, ?_, fun d hd => ?_, fun d hd => ?_⟩
  · refine Layout.Seg.append.mpr ⟨b.addr, hpre.congr fun d hd j hj => ?_, htail.joinNext ?_ fun d hd => ?_⟩
    · exact Layout.joinNext_out (hb.apart (by simp [hd]) j hj)
    · exact (List.pairwise_append.mp hb.ordered).2.1
    · have := hb.bounded (b := d) (List.mem_append_right _ hd)
      simp only [heapVirtualBase, defaultHeapSize, show block.hdr = 32 from rfl] at this ⊢
      omega
  · obtain ⟨c, hc₁, hc₂⟩ := Layout.Tiles.append.mp hb.tiles
    exact Layout.Tiles.append.mpr ⟨c, hc₁, hc₂.joinHead⟩
  · rcases List.mem_append.mp hd with hd | hd
    · exact hmagic d (List.mem_append_left _ hd)
    · rcases Layout.mem_joinHead hd with hd | ⟨c, hc, -, -, rfl⟩
      · exact hmagic d (List.mem_append_right _ hd)
      · exact hmagic c (List.mem_append_right _ hc)
  · rcases List.mem_append.mp hd with hd | hd
    · exact hb.aligned d (List.mem_append_left _ hd)
    · rcases Layout.mem_joinHead hd with hd | ⟨c, hc, e, he, rfl⟩
      · exact hb.aligned d (List.mem_append_right _ hd)
      · have h₁ := hb.aligned c (List.mem_append_right _ hc)
        have h₂ := hb.aligned e (List.mem_append_right _ he)
        refine ⟨h₁.1, ?_⟩
        simp only [show block.hdr = 32 from rfl]
        omega

/-- The rest of a block becomes a free block of its own. -/
theorem split (hb : Spelled h (pre ++ b :: post)) {need : Nat} (hroom : need + 48 ≤ b.size) (h16 : 16 ∣ need) :
    Spelled { h with mem := splitBlock h.mem b.addr need }
      (pre ++ ⟨b.addr, need, b.free⟩ :: ⟨b.addr + 32 + need, b.size - need - 32, true⟩ :: post) := by
  have hbound := hb.bounded (b := b) (by simp)
  simp only [heapVirtualBase, defaultHeapSize] at hbound
  have halign := hb.aligned b (by simp)
  have hinside := hb.ordered.apart_inside (n := need) (by simp only [block]; omega)
  obtain ⟨m₁, e₁⟩ : ∃ m₁, m₁ = wr32 h.mem (b.addr + 32 + need) blockMagic := ⟨_, rfl⟩
  have hsplit : splitBlock h.mem b.addr need = block.splitAt m₁ b.addr need := by rw [e₁]; rfl
  have hmark₁ : ∀ c ∈ pre ++ b :: post, ∀ j, block.InHeader c.addr j → m₁ j = h.mem j := by
    intro c hc j hj
    rw [e₁]
    refine wr32_out _ _ ?_
    rcases Blk.mem_append_cons hc with rfl | hc
    · simp only [Layout.InHeader, block] at hj
      omega
    · have := hinside c hc j hj
      simp only [Layout.InHeader, block] at this
      omega
  have hout : ∀ c ∈ pre ++ post, ∀ j, block.InHeader c.addr j → splitBlock h.mem b.addr need j = h.mem j := by
    intro c hc j hj
    rw [hsplit, Layout.splitAt_out (hb.apart hc j hj) (hinside c hc j hj)]
    refine hmark₁ c ?_ j hj
    simp only [List.mem_append, List.mem_cons] at hc ⊢
    tauto
  have htwo : ∀ j, block.InHeader b.addr j → ¬ block.InHeader (b.addr + 32 + need) j := by
    intro j hj hn
    simp only [Layout.InHeader, block] at hj hn
    omega
  have hcases : ∀ {c : Blk}, c ∈ pre ++ ⟨b.addr, need, b.free⟩ ::
      ⟨b.addr + 32 + need, b.size - need - 32, true⟩ :: post →
      c = ⟨b.addr, need, b.free⟩ ∨ c = ⟨b.addr + 32 + need, b.size - need - 32, true⟩ ∨ c ∈ pre ++ post := by
    intro c hc
    simp only [List.mem_append, List.mem_cons] at hc ⊢
    tauto
  refine ⟨hb.start, hb.size, ?_, ?_, fun c hc => ?_, fun c hc => ?_⟩
  · simp only [hsplit]
    exact (hb.listed.congr hmark₁).splitAt hb.ordered (by simp only [block]; omega) (by simp only [block]; omega)
  · obtain ⟨c, hc₁, rfl, hc₂⟩ := Layout.Tiles.append.mp hb.tiles
    refine Layout.Tiles.append.mpr ⟨b.addr, hc₁, rfl, rfl, ?_⟩
    simp only [show block.hdr = 32 from rfl] at hc₂ ⊢
    rwa [show b.addr + 32 + need + 32 + (b.size - need - 32) = b.addr + 32 + b.size by omega]
  · rcases hcases hc with rfl | rfl | hc
    · simp only [hsplit]
      rw [magic_splitAt (.inl rfl) (.inr htwo), ← hb.marked b (by simp)]
      exact magic_congr fun j hl hr => hmark₁ b (by simp) j ⟨hl, by simp only [block]; omega⟩
    · simp only [hsplit]
      rw [magic_splitAt (.inr fun j hn hj => htwo j hj hn) (.inl rfl), e₁, magic, rd32_wr32]
      rfl
    · rw [← (hb.others hc).1]
      exact magic_congr fun j hl hr => hout c hc j ⟨hl, by simp only [block]; omega⟩
  · rcases hcases hc with rfl | rfl | hc
    · exact ⟨halign.1, h16⟩
    · exact ⟨by simp only; omega, by simp only; omega⟩
    · exact (hb.others hc).2

end Spelled

/-! ### `kmalloc` -/

/-- The block has room. -/
def Blk.Fits (need : Nat) (b : Blk) : Prop := b.free = true ∧ need ≤ b.size

/-- What becomes of the block that is taken. -/
def takenBlock (need : Nat) (b : Blk) : List Blk :=
  if need + 48 ≤ b.size then [⟨b.addr, need, false⟩, ⟨b.addr + 32 + need, b.size - need - 32, true⟩]
  else [⟨b.addr, b.size, false⟩]

/-- The loop takes the first block with room. -/
theorem kmallocLoop_spec {m : Bytes} (need : Nat) : ∀ {fuel : Nat} {l : List Blk} {p : Nat},
    block.Seg m p l 0 → (∀ b ∈ l, magic m b.addr = blockMagic) → l.length < fuel →
    (kmallocLoop m need fuel p = some (0, m) ∧ ∀ b ∈ l, ¬ Blk.Fits need b) ∨
      ∃ pre b post, l = pre ++ b :: post ∧ Blk.Fits need b ∧
        kmallocLoop m need fuel p = some (b.addr + 32, takeBlock m b.addr need) := by
  intro fuel
  induction fuel with
  | zero => intro l p _ _ hlen; omega
  | succ fuel ih =>
      intro l p hseg hmark hlen
      cases l with
      | nil =>
          cases hseg
          exact .inl ⟨by simp [kmallocLoop], by simp⟩
      | cons b l =>
          obtain ⟨rfl, hne, hs, hf, hrest⟩ := hseg
          have hb := hmark b (by simp)
          simp only [kmallocLoop, hne, hb, ne_eq, not_true_eq_false, if_false, hf, hs]
          by_cases hfit : b.free = true ∧ need ≤ b.size
          · rw [if_pos hfit]
            exact .inr ⟨[], b, l, rfl, hfit, rfl⟩
          · rw [if_neg hfit]
            rcases ih hrest (fun c hc => hmark c (by simp [hc])) (by simp only [List.length_cons] at hlen; omega)
              with ⟨hnull, hnone⟩ | ⟨pre, c, post, rfl, hc, hr⟩
            · refine .inl ⟨hnull, fun c hc => ?_⟩
              rcases List.mem_cons.mp hc with rfl | hc
              · exact hfit
              · exact hnone c hc
            · exact .inr ⟨b :: pre, c, post, rfl, hc, hr⟩

namespace Blocks

variable {h : KHeap} {pre post : List Blk} {a b : Blk}

theorem noFreePair_takenBlock {need : Nat} (h : Layout.NoFreePair (pre ++ b :: post)) (hfree : b.free = true) :
    Layout.NoFreePair (pre ++ (takenBlock need b ++ post)) := by
  obtain ⟨hpre, hb, -⟩ := List.isChain_append.mp h
  have hpost : Layout.NoFreePair post := hb.tail
  have hnext : ∀ c ∈ post.head?, c.free = false := by
    intro c hc
    have := (List.isChain_cons.mp hb).1 c hc
    simpa [hfree] using this
  simp only [takenBlock]
  split
  · refine List.isChain_append.mpr ⟨hpre, ?_, by simp⟩
    refine List.isChain_cons_cons.mpr ⟨by simp, List.isChain_cons.mpr ⟨fun c hc => ?_, hpost⟩⟩
    simp [hnext c hc]
  · exact List.isChain_append.mpr ⟨hpre, List.isChain_cons.mpr ⟨by simp, hpost⟩, by simp⟩

/-- **The list after `kmalloc` took the block.** -/
theorem take (hb : Blocks h (pre ++ b :: post)) {need : Nat} (hfit : Blk.Fits need b) (h16 : 16 ∣ need) :
    Blocks { h with mem := takeBlock h.mem b.addr need } (pre ++ (takenBlock need b ++ post)) := by
  have hbound := hb.bounded (b := b) (by simp)
  simp only [heapVirtualBase, defaultHeapSize] at hbound
  have hneed := hfit.2
  have hs : block.size h.mem b.addr = b.size := (hb.listed.mem b (by simp)).2.1
  have hcond : (need + block.hdr + 16) % 2 ^ 64 = need + 48 := by
    simp only [show block.hdr = 32 from rfl]
    omega
  refine ⟨?_, noFreePair_takenBlock hb.noFreePair hfit.1⟩
  simp only [takeBlock, hcond, hs, takenBlock]
  split
  · next hroom => exact (hb.split hroom h16).setFree false
  · exact hb.setFree false

/-! ### `kfree` -/

section Prev

variable {m : Bytes} {target : Nat}

/-- No block of the list points to the target. -/
theorem findPrev_none : ∀ {fuel : Nat} {l : List Blk} {p : Nat}, block.Seg m p l 0 →
    (∀ c ∈ l.tail, c.addr ≠ target) → target ≠ 0 → l.length < fuel → findPrev m target fuel p = some 0 := by
  intro fuel
  induction fuel with
  | zero => intro l p _ _ _ hlen; omega
  | succ fuel ih =>
      intro l p hseg hne h0 hlen
      cases l with
      | nil =>
          cases hseg
          simp [findPrev]
      | cons b l =>
          obtain ⟨rfl, hb, -, -, hrest⟩ := hseg
          have hnext : block.next m b.addr ≠ target := by
            cases l with
            | nil =>
                rw [show block.next m b.addr = 0 from hrest]
                exact h0.symm
            | cons c l =>
                rw [hrest.1]
                exact hne c (by simp)
          simp only [findPrev, hb, hnext, or_self, if_false]
          exact ih hrest (fun c hc => hne c (by simpa using List.mem_of_mem_tail hc)) h0
            (by simp only [List.length_cons] at hlen; omega)

/-- The block before the target. -/
theorem findPrev_some {a : Blk} {l' : List Blk} : ∀ {fuel : Nat} {l : List Blk} {p : Nat},
    block.Seg m p (l ++ a :: l') 0 →
    (∀ c ∈ l ++ [a], c.addr ≠ target) → (∃ c ∈ l'.head?, c.addr = target) → l.length < fuel →
    findPrev m target fuel p = some a.addr := by
  intro fuel
  induction fuel with
  | zero => intro l p _ _ _ hlen; omega
  | succ fuel ih =>
      intro l p hseg hne htarget hlen
      cases l with
      | nil =>
          obtain ⟨rfl, ha, -, -, hrest⟩ := hseg
          have hnext : block.next m a.addr = target := by
            obtain ⟨c, hc, rfl⟩ := htarget
            cases l' with
            | nil => simp at hc
            | cons d l' =>
                cases hc
                exact hrest.1
          simp [findPrev, hnext]
      | cons b l =>
          obtain ⟨rfl, hb, -, -, hrest⟩ := hseg
          have hnext : block.next m b.addr ≠ target := by
            cases l with
            | nil =>
                rw [hrest.1]
                exact hne a (by simp)
            | cons c l =>
                rw [hrest.1]
                exact hne c (by simp)
          simp only [findPrev, hb, hnext, or_self, if_false]
          exact ih hrest (fun c hc => hne c (by simp at hc ⊢; tauto)) htarget
            (by simp only [List.length_cons] at hlen; omega)

end Prev

/-- The list from a block on, once it is free and joined with the next one. -/
def freedTail (b : Blk) (post : List Blk) : List Blk := block.joinHead ({ b with free := true } :: post)

/-- Memory after that. -/
def freedMem (m : Bytes) (b : Blk) : Bytes := block.joinNext (block.setFree m b.addr true) b.addr

theorem spelled_freed (hb : Blocks h (pre ++ b :: post)) :
    Spelled { h with mem := freedMem h.mem b } (pre ++ freedTail b post) :=
  (hb.setFree true).joinNext

/-- The tail starts with a free block at the address of the freed one, and no two neighbours are free. -/
theorem freedTail_eq (hpair : Layout.NoFreePair post) :
    Layout.NoFreePair (freedTail b post) ∧ ∃ d l', freedTail b post = d :: l' ∧ d.free = true ∧
      d.addr = b.addr := by
  obtain ⟨hR, d, l', he, hfree, -⟩ :=
    Layout.noFreePair_joinHead (L := block) (b := { b with free := true }) rfl hpair
  refine ⟨hR, d, l', he, hfree, ?_⟩
  cases post with
  | nil =>
      cases he
      rfl
  | cons c post =>
      simp only [Layout.joinHead] at he
      split at he <;> (cases he; rfl)

theorem noFreePair_prev (hpair : Layout.NoFreePair (pre ++ a :: b :: post)) :
    Layout.NoFreePair (pre ++ block.joinHead (a :: freedTail b post)) := by
  obtain ⟨hpre, hab, hedge⟩ := List.isChain_append.mp hpair
  have hpost : Layout.NoFreePair post := hab.tail.tail
  obtain ⟨hR, d, l', hd, hfree, -⟩ := freedTail_eq (b := b) hpost
  have hhead : ∀ y ∈ (block.joinHead (a :: freedTail b post)).head?, y.free = a.free := by
    rw [hd]
    simp only [Layout.joinHead]
    split <;> (intro y hy; cases hy; rfl)
  refine List.isChain_append.mpr ⟨hpre, ?_, fun x hx y hy => ?_⟩
  · cases ha : a.free with
    | true => exact (Layout.noFreePair_joinHead ha hR).1
    | false =>
        rw [hd] at hR ⊢
        simp only [Layout.joinHead, ha, Bool.false_and, Bool.false_eq_true, if_false]
        exact List.isChain_cons_cons.mpr ⟨by simp [ha], hR⟩
  · rw [hhead y hy]
    exact hedge x hx a (by simp)

/-- `kfree` of a block in use goes through all checks. -/
theorem kfree_eq (hb : Blocks h (pre ++ b :: post)) (hinit : h.heapInitialized = true)
    (hused : b.free = false) (hsize : 0 < b.size) :
    kfree (b.addr + 32) h = (findPrev (freedMem h.mem b) b.addr h.rounds h.freeList).map fun current =>
      if current ≠ 0 ∧ block.free (freedMem h.mem b) current then
        { h with mem := block.join (freedMem h.mem b) current }
      else { h with mem := freedMem h.mem b } := by
  have hbound := hb.bounded (b := b) (by simp)
  have hrange : ¬ (b.addr + 32 < h.heapStart ∨ h.heapStart + h.heapSize ≤ b.addr + 32) := by
    rw [hb.start, hb.size]
    omega
  have hptr : b.addr + 32 - block.hdr = b.addr := by
    simp only [show block.hdr = 32 from rfl]
    omega
  have hfree : block.free h.mem b.addr = false := by rw [(hb.listed.mem b (by simp)).2.2, hused]
  rw [kfree, if_neg (by omega), if_neg (by simp [hinit]), if_neg hrange]
  simp only [hptr]
  rw [if_neg (by simp [hb.marked b (by simp)]), if_neg (by simp [hfree])]
  rfl

/-- `kfree` of the first block. -/
theorem free_first (hb : Blocks h (b :: post)) (hinit : h.heapInitialized = true) (hused : b.free = false)
    (hsize : 0 < b.size) : kfree (b.addr + 32) h = some { h with mem := freedMem h.mem b } ∧
      Blocks { h with mem := freedMem h.mem b } (freedTail b post) := by
  have hb₀ : Blocks h ([] ++ b :: post) := hb
  have hspelled := spelled_freed hb₀
  obtain ⟨hpair, d, l', hd, -, haddr⟩ := freedTail_eq (b := b) (show Layout.NoFreePair post from hb.noFreePair.tail)
  have hprev : findPrev (freedMem h.mem b) b.addr h.rounds h.freeList = some 0 := by
    refine findPrev_none hspelled.listed (fun c hc => ?_) (hb.listed.mem b (by simp)).1 hspelled.length_lt
    have hord := hspelled.ordered
    rw [List.nil_append, hd] at hc hord
    have := List.rel_of_pairwise_cons hord hc
    simp only [show block.hdr = 32 from rfl] at this
    omega
  refine ⟨?_, hspelled, hpair⟩
  rw [kfree_eq hb₀ hinit hused hsize, hprev]
  simp

/-- `kfree` of a block with one before it. -/
theorem free_next (hb : Blocks h (pre ++ a :: b :: post)) (hinit : h.heapInitialized = true)
    (hused : b.free = false) (hsize : 0 < b.size) :
    kfree (b.addr + 32) h = some { h with mem := block.joinNext (freedMem h.mem b) a.addr } ∧
      Blocks { h with mem := block.joinNext (freedMem h.mem b) a.addr }
        (pre ++ block.joinHead (a :: freedTail b post)) := by
  have hl : pre ++ a :: b :: post = (pre ++ [a]) ++ b :: post := by simp
  have hpair := hb.noFreePair
  have hord := hb.ordered
  rw [hl] at hb hord
  have hspelled := spelled_freed hb
  rw [show pre ++ [a] ++ freedTail b post = pre ++ a :: freedTail b post by simp] at hspelled
  have hpost : Layout.NoFreePair post := (List.isChain_append.mp hpair).2.1.tail.tail
  obtain ⟨-, d, l', hd, hdfree, haddr⟩ := freedTail_eq (b := b) hpost
  have hprev : findPrev (freedMem h.mem b) b.addr h.rounds h.freeList = some a.addr := by
    have hlen := hspelled.length_lt
    refine findPrev_some hspelled.listed (fun c hc => ?_) ⟨d, by rw [hd]; rfl, haddr⟩ ?_
    · have := (List.pairwise_append.mp hord).2.2 c hc b (by simp)
      simp only [show block.hdr = 32 from rfl] at this
      omega
    · simp only [List.length_append] at hlen
      exact Nat.lt_of_le_of_lt (Nat.le_add_right _ _) hlen
  have hjoins : block.joins (freedMem h.mem b) a.addr = a.free := by
    obtain ⟨c, -, htail⟩ := Layout.Seg.append.mp hspelled.listed
    obtain rfl : c = a.addr := htail.1
    rw [hd] at htail
    rw [htail.joins_cons, hdfree, Bool.and_true]
  obtain ⟨ha0, -, hafree⟩ := hspelled.listed.mem a (by simp)
  refine ⟨?_, hspelled.joinNext, noFreePair_prev hpair⟩
  rw [kfree_eq hb hinit hused hsize, hprev]
  simp only [Option.map_some, Layout.joinNext, hjoins, hafree, ne_eq, ha0, not_false_eq_true, true_and]
  split <;> rfl

/-- **The list after `kfree`**: blocks in use stay. -/
theorem free (hb : Blocks h (pre ++ b :: post)) (hinit : h.heapInitialized = true) (hused : b.free = false)
    (hsize : 0 < b.size) : ∃ m l', kfree (b.addr + 32) h = some { h with mem := m } ∧
      Blocks { h with mem := m } l' ∧ ∀ c ∈ pre ++ post, c.free = false → c ∈ l' := by
  have hkept : ∀ c ∈ post, c.free = false → c ∈ freedTail b post := fun c hc hu =>
    Layout.mem_joinHead_of_used (by simp [hc]) hu
  rcases List.eq_nil_or_concat' pre with rfl | ⟨pre', a, rfl⟩
  · obtain ⟨hr, hblocks⟩ := free_first hb hinit hused hsize
    exact ⟨_, _, hr, hblocks, fun c hc hu => hkept c (by simpa using hc) hu⟩
  · rw [show pre' ++ [a] ++ b :: post = pre' ++ a :: b :: post by simp] at hb
    obtain ⟨hr, hblocks⟩ := free_next hb hinit hused hsize
    refine ⟨_, _, hr, hblocks, fun c hc hu => ?_⟩
    have hc : c ∈ pre' ∨ c = a ∨ c ∈ post := by simpa [or_assoc] using hc
    rw [List.mem_append]
    rcases hc with hc | rfl | hc
    · exact .inl hc
    · exact .inr (Layout.mem_joinHead_of_used (by simp) hu)
    · exact .inr (Layout.mem_joinHead_of_used (by simp [hkept c hc hu]) hu)

end Blocks

end Blackmount.Mem
