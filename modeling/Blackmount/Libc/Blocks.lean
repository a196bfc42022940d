import Blackmount.Libc.Malloc

/-!
# Libc — the blocks of `malloc`

The list of blocks that the process's memory spells, and what each function does to it.  Unlike the
kernel's, the list has gaps: `mmap` takes memory between two blocks.

* `Tidy`: the blocks follow each other between the start of the heap and the break.
* `Step`: what the functions have in common; `malloc_spec` and `free_spec` are its instances.
-/

namespace Blackmount.Libc
open Blackmount.Lib

/-- What the process's memory spells. -/
structure Tidy (s : Process) (l : List Blk) : Prop where
  start : 0 < s.heapStart
  stack : 0 < s.stackVaddrBase ∧ s.stackVaddrBase < 2 ^ 63
  brk : s.heapStart ≤ s.heapEnd ∧ s.heapEnd ≤ s.stackVaddrBase
  listed : block.Seg s.mem s.heapHead l 0
  ordered : block.Ordered l
  inside : ∀ b ∈ l, s.heapStart ≤ b.addr ∧ b.addr + 24 + b.size ≤ s.heapEnd

/-- A region is apart from a block and its header. -/
def Clear (r : Nat × Nat) (b : Blk) : Prop := r.1 + r.2 ≤ b.addr ∨ b.addr + 24 + b.size ≤ r.1

/-- From one list to the next: the break does not sink, blocks in use stay, and regions below the break
that were apart from all blocks still are. -/
structure Step (s s' : Process) (l l' : List Blk) : Prop where
  tidy : Tidy s' l'
  grows : s.heapEnd ≤ s'.heapEnd
  kept : ∀ b ∈ l, b.free = false → b ∈ l'
  clear : ∀ r : Nat × Nat, 0 < r.2 → r.1 + r.2 ≤ s.heapEnd → (∀ b ∈ l, Clear r b) → ∀ b ∈ l', Clear r b

theorem Step.refl {s : Process} {l : List Blk} (h : Tidy s l) : Step s s l l :=
  ⟨h, Nat.le_refl _, fun _ hb _ => hb, fun _ _ _ h => h⟩

namespace Tidy

variable {s : Process} {l pre post : List Blk} {b : Blk}

theorem length_lt (h : Tidy s l) : l.length < s.rounds := by
  have := h.ordered.length h.brk.1 h.inside
  simp only [Process.rounds, show block.hdr = 24 from rfl] at this ⊢
  omega

theorem bounded (h : Tidy s l) {b : Blk} (hb : b ∈ l) : b.addr + 24 + b.size < 2 ^ 63 := by
  have h₁ := (h.inside b hb).2
  have h₂ := h.brk.2
  have h₃ := h.stack.2
  omega

theorem walk (h : Tidy s l) : block.walk s.mem s.rounds s.heapHead = l :=
  h.listed.walk (Nat.le_of_lt h.length_lt)

/-- Writes that spare the headers. -/
theorem payload (h : Tidy s l) {m : Bytes} (hm : ∀ b ∈ l, ∀ j, block.InHeader b.addr j → m j = s.mem j) :
    Tidy { s with mem := m } l :=
  ⟨h.start, h.stack, h.brk, h.listed.congr hm, h.ordered, h.inside⟩

theorem setFree (h : Tidy s (pre ++ b :: post)) (v : Bool) :
    Tidy { s with mem := block.setFree s.mem b.addr v } (pre ++ { b with free := v } :: post) := by
  have hlisted := h.listed.mem b (by simp)
  refine ⟨h.start, h.stack, h.brk, ?_, ?_, fun c hc => ?_⟩
  · exact h.listed.replace h.ordered (fun j hj => Layout.setFree_out hj) rfl
      (by rw [Layout.size_setFree, hlisted.2.1]) (by rw [Layout.free_setFree]) (by rw [Layout.next_setFree])
  · obtain ⟨h₁, h₂, h₃⟩ := List.pairwise_append.mp h.ordered
    obtain ⟨h₄, h₅⟩ := List.pairwise_cons.mp h₂
    refine List.pairwise_append.mpr ⟨h₁, .cons h₄ h₅, fun c hc d hd => ?_⟩
    rcases List.mem_cons.mp hd with rfl | hd
    · exact h₃ c hc b (by simp)
    · exact h₃ c hc d (by simp [hd])
  · simp only [List.mem_append, List.mem_cons] at hc
    rcases hc with hc | rfl | hc
    · exact h.inside c (by simp [hc])
    · exact h.inside b (by simp)
    · exact h.inside c (by simp [hc])

end Tidy

/-! ### `malloc` from the list -/

theorem findFree_spec {m : Bytes} (size : Nat) : ∀ {fuel : Nat} {l : List Blk} {p : Nat},
    block.Seg m p l 0 → l.length < fuel →
    (findFree m size fuel p = some 0 ∧ ∀ b ∈ l, ¬ (b.free = true ∧ size ≤ b.size)) ∨
      ∃ pre b post, l = pre ++ b :: post ∧ (b.free = true ∧ size ≤ b.size) ∧
        findFree m size fuel p = some b.addr := by
  intro fuel
  induction fuel with
  | zero => intro l p _ hlen; omega
  | succ fuel ih =>
      intro l p hseg hlen
      cases l with
      | nil =>
          cases hseg
          exact .inl ⟨by simp [findFree], by simp⟩
      | cons b l =>
          obtain ⟨rfl, hne, hs, hf, hrest⟩ := hseg
          simp only [findFree, hne, if_false, hf, hs]
          by_cases hfit : b.free = true ∧ size ≤ b.size
          · rw [if_pos hfit]
            exact .inr ⟨[], b, l, rfl, hfit, rfl⟩
          · rw [if_neg hfit]
            rcases ih hrest (by simp only [List.length_cons] at hlen; omega)
              with ⟨hnull, hnone⟩ | ⟨pre, c, post, rfl, hc, hr⟩
            · refine .inl ⟨hnull, fun c hc => ?_⟩
              rcases List.mem_cons.mp hc with rfl | hc
              · exact hfit
              · exact hnone c hc
            · exact .inr ⟨b :: pre, c, post, rfl, hc, hr⟩

/-- What becomes of the block that is taken. -/
def takenBlock (need : Nat) (b : Blk) : List Blk :=
  if need + 40 ≤ b.size then [⟨b.addr, need, false⟩, ⟨b.addr + 24 + need, b.size - need - 24, true⟩]
  else [⟨b.addr, b.size, false⟩]

/-- The parts of a block lie inside it. -/
theorem mem_takenBlock {need : Nat} {b c : Blk} (hc : c ∈ takenBlock need b) :
    b.addr ≤ c.addr ∧ c.addr + 24 + c.size ≤ b.addr + 24 + b.size := by
  simp only [takenBlock] at hc
  split at hc
  · simp only [List.mem_cons, List.not_mem_nil, or_false] at hc
    rcases hc with rfl | rfl <;> (simp only; omega)
  · simp only [List.mem_cons, List.not_mem_nil, or_false] at hc
    rw [hc]
    exact ⟨Nat.le_refl _, Nat.le_refl _⟩

theorem Clear.inside {r : Nat × Nat} {b c : Blk} (h : Clear r b)
    (hin : b.addr ≤ c.addr ∧ c.addr + 24 + c.size ≤ b.addr + 24 + b.size) : Clear r c := by
  simp only [Clear] at h ⊢
  omega

theorem ordered_takenBlock (need : Nat) {pre post : List Blk} {b : Blk}
    (h : block.Ordered (pre ++ b :: post)) : block.Ordered (pre ++ (takenBlock need b ++ post)) := by
  obtain ⟨h₁, h₂, h₃⟩ := List.pairwise_append.mp h
  obtain ⟨h₄, h₅⟩ := List.pairwise_cons.mp h₂
  have hself : block.Ordered (takenBlock need b) := by
    simp only [takenBlock]
    split
    · refine .cons (fun c hc => ?_) (List.pairwise_singleton _ _)
      rw [List.mem_singleton.mp hc]
      exact Nat.le_refl _
    · exact List.pairwise_singleton _ _
  refine List.pairwise_append.mpr ⟨h₁, List.pairwise_append.mpr ⟨hself, h₅, fun c hc d hd => ?_⟩, fun c hc d hd => ?_⟩
  · have hin := mem_takenBlock hc
    have := h₄ d hd
    simp only [show block.hdr = 24 from rfl] at this ⊢
    omega
  · rcases List.mem_append.mp hd with hd | hd
    · have hin := mem_takenBlock hd
      have := h₃ c hc b (by simp)
      omega
    · exact h₃ c hc d (by simp [hd])

/-- **The list after a block was taken from it.** -/
theorem Tidy.take {s : Process} {pre post : List Blk} {b : Blk} (h : Tidy s (pre ++ b :: post)) {need : Nat}
    (hfit : b.free = true ∧ need ≤ b.size) :
    Step s { s with mem := block.setFree (split s.mem b.addr need) b.addr false } (pre ++ b :: post)
      (pre ++ (takenBlock need b ++ post)) := by
  have hbound := h.bounded (b := b) (by simp)
  have hs : block.size s.mem b.addr = b.size := (h.listed.mem b (by simp)).2.1
  have hcond : (need + block.hdr + 16) % 2 ^ 64 = need + 40 := by
    simp only [show block.hdr = 24 from rfl]
    omega
  have hin : ∀ c ∈ pre ++ (takenBlock need b ++ post), ∃ d ∈ pre ++ b :: post,
      d.addr ≤ c.addr ∧ c.addr + 24 + c.size ≤ d.addr + 24 + d.size := by
    intro c hc
    simp only [List.mem_append] at hc
    rcases hc with hc | hc | hc
    · exact ⟨c, by simp [hc], Nat.le_refl _, Nat.le_refl _⟩
    · exact ⟨b, by simp, mem_takenBlock hc⟩
    · exact ⟨c, by simp [hc], Nat.le_refl _, Nat.le_refl _⟩
  have hord := ordered_takenBlock need h.ordered
  have hinside : ∀ c ∈ pre ++ (takenBlock need b ++ post), s.heapStart ≤ c.addr ∧
      c.addr + 24 + c.size ≤ s.heapEnd := by
    intro c hc
    obtain ⟨d, hd, hdc⟩ := hin c hc
    have := h.inside d hd
    omega
  refine ⟨⟨h.start, h.stack, h.brk, ?_, hord, hinside⟩, Nat.le_refl _, fun c hc hu => ?_, fun r _ _ hr c hc => ?_⟩
  · simp only [split, hs, hcond, takenBlock] at hord ⊢
    by_cases hroom : need + 40 ≤ b.size
    · rw [if_pos hroom] at hord
      rw [if_neg (by omega), if_pos hroom]
      have hseg := h.listed.splitAt (n := need) h.ordered (by simp only [block]; omega)
        (by simp only [block]; omega)
      have hord' : block.Ordered (pre ++ ⟨b.addr, need, b.free⟩ ::
          ⟨b.addr + block.hdr + need, b.size - need - block.hdr, true⟩ :: post) := by
        obtain ⟨h₁, h₂, h₃⟩ := List.pairwise_append.mp hord
        obtain ⟨h₄, h₅⟩ := List.pairwise_cons.mp h₂
        refine List.pairwise_append.mpr ⟨h₁, .cons h₄ h₅, fun c hc d hd => ?_⟩
        rcases List.mem_cons.mp hd with rfl | hd
        · exact h₃ c hc ⟨b.addr, need, false⟩ (by simp)
        · exact h₃ c hc d (by simp only [List.mem_append, List.mem_cons] at hd ⊢; tauto)
      have hmem := hseg.mem ⟨b.addr, need, b.free⟩ (by simp)
      have hb' : (⟨b.addr, need, false⟩ : Blk).addr = b.addr := rfl
      exact hseg.replace hord' (fun j hj => Layout.setFree_out hj) hb'
        (by rw [Layout.size_setFree, hmem.2.1]) (by rw [Layout.free_setFree]) (by rw [Layout.next_setFree])
    · rw [if_pos (by omega), if_neg hroom]
      exact (h.setFree false).listed
  · simp only [List.mem_append, List.mem_cons] at hc ⊢
    rcases hc with hc | rfl | hc
    · exact .inl hc
    · rw [hfit.1] at hu
      cases hu
    · exact .inr (.inr hc)
  · obtain ⟨d, hd, hdc⟩ := hin c hc
    exact (hr d hd).inside hdc

/-! ### `malloc` from the break -/

/-- Neither the size of a new block nor the break with it wraps; or the wrapped break is refused. -/
def ExtendSafe (s : Process) (size : Nat) : Prop :=
  24 + size < 2 ^ 64 ∧ (s.heapEnd + (24 + size) < 2 ^ 64 ∨
    0 < s.heapEnd + (24 + size) - 2 ^ 64 ∧ s.heapEnd + (24 + size) - 2 ^ 64 < s.heapStart)

instance (s : Process) (size : Nat) : Decidable (ExtendSafe s size) := by delta ExtendSafe; infer_instance

/-- The process with a new block at the old break. -/
def extended (s : Process) (size : Nat) : Process :=
  { s with heapEnd := s.heapEnd + (24 + size), mem := block.setHeader s.mem s.heapEnd size false 0 }

theorem extend_spec {s : Process} {l : List Blk} {size : Nat} (mapped : Bool) (h : Tidy s l)
    (hsafe : ExtendSafe s size) :
    extend size mapped s = (0, s) ∨
      extend size mapped s = (s.heapEnd, extended s size) ∧ (extended s size).heapEnd ≤ s.stackVaddrBase := by
  obtain ⟨hsize, hbrk⟩ := hsafe
  have hstart := h.start
  have hstack := h.stack
  have hend := h.brk
  have hmod : (block.hdr + size) % 2 ^ 64 = 24 + size := by
    simp only [show block.hdr = 24 from rfl]
    exact Nat.mod_eq_of_lt hsize
  have hcur : (procBrk 0 mapped s).1 = s.heapEnd := by simp [procBrk]
  have hne : s.heapEnd ≠ failed := by
    simp only [failed]
    omega
  have hlimit : (if s.stackVaddrBase ≠ 0 then s.stackVaddrBase else userCodeLimit) = s.stackVaddrBase :=
    if_pos (by omega)
  simp only [extend, hmod, sbrk, hcur, hne, if_false]
  by_cases hlt : s.heapEnd + (24 + size) < 2 ^ 64
  · rw [Nat.mod_eq_of_lt hlt]
    have hpos : s.heapEnd + (24 + size) ≠ 0 := by omega
    have hnot : ¬ s.heapEnd + (24 + size) < s.heapStart := by omega
    simp only [procBrk, hpos, if_false, hlimit, hnot, false_or]
    split
    · left
      simp
    split
    · left
      simp
    · next hle _ =>
        right
        exact ⟨rfl, by simp only [extended]; omega⟩
  · left
    have hwrap : (s.heapEnd + (24 + size)) % 2 ^ 64 = s.heapEnd + (24 + size) - 2 ^ 64 := by omega
    rw [hwrap]
    have hpos : s.heapEnd + (24 + size) - 2 ^ 64 ≠ 0 := by omega
    have hlow : s.heapEnd + (24 + size) - 2 ^ 64 < s.heapStart := by omega
    simp only [procBrk, hpos, if_false, hlow, true_or, if_true]

theorem lastBlock_spec {m : Bytes} {a : Blk} : ∀ {fuel : Nat} {l : List Blk} {p : Nat},
    block.Seg m p (l ++ [a]) 0 → l.length < fuel → lastBlock m fuel p = some a.addr := by
  intro fuel
  induction fuel with
  | zero => intro l p _ hlen; omega
  | succ fuel ih =>
      intro l p hseg hlen
      cases l with
      | nil =>
          obtain ⟨rfl, -, -, -, hnext⟩ := hseg
          have hnext : block.next m a.addr = 0 := hnext
          simp [lastBlock, hnext]
      | cons b l =>
          obtain ⟨rfl, -, -, -, hrest⟩ := hseg
          have hne : block.next m b.addr ≠ 0 := by
            cases l with
            | nil => exact hrest.2.1
            | cons c l => exact hrest.2.1
          simp only [lastBlock, hne, if_false]
          exact ih hrest (by simp only [List.length_cons] at hlen; omega)

section Extend

variable {s : Process} {l : List Blk} {size : Nat}

/-- The new block is behind all others. -/
theorem Tidy.extended_ordered (h : Tidy s l) : block.Ordered (l ++ [⟨s.heapEnd, size, false⟩]) := by
  refine List.pairwise_append.mpr ⟨h.ordered, List.pairwise_singleton _ _, fun b hb c hc => ?_⟩
  rw [List.mem_singleton.mp hc]
  exact (h.inside b hb).2

theorem Tidy.extended_inside (h : Tidy s l) :
    ∀ b ∈ l ++ [⟨s.heapEnd, size, false⟩], s.heapStart ≤ b.addr ∧ b.addr + 24 + b.size ≤ s.heapEnd + (24 + size) := by
  intro b hb
  rcases List.mem_append.mp hb with hb | hb
  · have := h.inside b hb
    omega
  · rw [List.mem_singleton.mp hb]
    exact ⟨h.brk.1, by simp only; omega⟩

/-- The header of the new block, and the headers of the others. -/
theorem extended_headers (h : Tidy s l) (hle : (extended s size).heapEnd ≤ s.stackVaddrBase) :
    (block.size (extended s size).mem s.heapEnd = size ∧ block.free (extended s size).mem s.heapEnd = false ∧
      block.next (extended s size).mem s.heapEnd = 0) ∧
      ∀ b ∈ l, ∀ j, block.InHeader b.addr j → (extended s size).mem j = s.mem j := by
  have hstack := h.stack.2
  simp only [extended] at hle
  refine ⟨Layout.setHeader_spec (by omega) (by omega), fun b hb j hj => Layout.setHeader_out fun hn => ?_⟩
  have := h.inside b hb
  simp only [Layout.InHeader, block] at hj hn
  omega

/-- The first block of the list. -/
theorem Tidy.extend_first (h : Tidy s []) (hle : (extended s size).heapEnd ≤ s.stackVaddrBase) :
    Tidy { extended s size with heapHead := s.heapEnd } [⟨s.heapEnd, size, false⟩] := by
  obtain ⟨⟨hs, hf, hn⟩, -⟩ := extended_headers h hle
  have hstart := h.start
  have hbrk := h.brk
  exact ⟨h.start, h.stack, ⟨by simp only [extended]; omega, hle⟩,
    ⟨rfl, show s.heapEnd ≠ 0 by omega, hs, hf, hn⟩,
    h.extended_ordered, h.extended_inside⟩

/-- A further block at the end of the list. -/
theorem Tidy.extend_last {a : Blk} (h : Tidy s (l ++ [a])) (hle : (extended s size).heapEnd ≤ s.stackVaddrBase) :
    Tidy { extended s size with mem := block.setNext (extended s size).mem a.addr s.heapEnd }
      (l ++ [a] ++ [⟨s.heapEnd, size, false⟩]) := by
  obtain ⟨⟨hs, hf, hn⟩, hold⟩ := extended_headers h hle
  have hstart := h.start
  have hstack := h.stack
  have hbrk := h.brk
  have hain := h.inside a (by simp)
  obtain ⟨c, hpre, rfl, hne, hsa, hfa, -⟩ := Layout.Seg.append.mp (h.listed.congr hold)
  have hnew : ∀ j, block.InHeader s.heapEnd j →
      block.setNext (extended s size).mem a.addr s.heapEnd j = (extended s size).mem j := by
    intro j hj
    refine Layout.setNext_out fun ha => ?_
    simp only [Layout.InHeader, block] at hj ha
    omega
  refine ⟨h.start, h.stack, ⟨by simp only [extended]; omega, hle⟩, ?_, h.extended_ordered, h.extended_inside⟩
  rw [List.append_assoc]
  refine Layout.Seg.append.mpr ⟨a.addr, hpre.congr fun b hb j hj => ?_, rfl, hne, ?_, ?_, ?_⟩
  · exact Layout.setNext_out (h.ordered.header b (by simp [hb]) j hj)
  · rw [Layout.size_setNext, hsa]
  · rw [Layout.free_setNext, hfa]
  · rw [Layout.next_setNext (by omega)]
    exact ⟨rfl, by omega, by rw [Layout.size_congr hnew, hs], by rw [Layout.free_congr hnew, hf],
      by rw [Layout.next_congr hnew, hn]; rfl⟩

/-- **The list after it was extended.** -/
theorem Tidy.extend_step {s' : Process} (h' : Tidy s' (l ++ [⟨s.heapEnd, size, false⟩]))
    (hend : s'.heapEnd = s.heapEnd + (24 + size)) : Step s s' l (l ++ [⟨s.heapEnd, size, false⟩]) := by
  refine ⟨h', by omega, fun b hb _ => by simp [hb], fun r _ hle hr b hb => ?_⟩
  rcases List.mem_append.mp hb with hb | hb
  · exact hr b hb
  · rw [List.mem_singleton.mp hb]
    exact .inl hle

end Extend

/-! ### The specifications -/

/-- The block is free, or will be when `ptr` is freed. -/
def Freeable (ptr : Nat) (b : Blk) : Prop := b.free = true ∨ b.addr + 24 = ptr

/-- Neighbours that are free once `ptr` is freed touch each other. -/
def Joinable (ptr : Nat) (l : List Blk) : Prop :=
  l.IsChain fun b c => Freeable ptr b → Freeable ptr c → b.addr + 24 + b.size = c.addr

instance (ptr : Nat) (b : Blk) : Decidable (Freeable ptr b) := by delta Freeable; infer_instance

instance (ptr : Nat) (l : List Blk) : Decidable (Joinable ptr l) := by delta Joinable; infer_instance

/-- The request can be rounded up, and there is a block for it or the heap can be extended. -/
def MallocSafe (s : Process) (size : Nat) : Prop :=
  size ≤ 2 ^ 64 - 16 ∧ ((∃ b ∈ block.walk s.mem s.rounds s.heapHead, b.free = true ∧ alignUp size ≤ b.size) ∨
    ExtendSafe s (alignUp size))

instance (s : Process) (size : Nat) : Decidable (MallocSafe s size) := by delta MallocSafe; infer_instance

section Specs

variable {s : Process} {l : List Blk}

theorem joinable_takenBlock {ptr need : Nat} {pre post : List Blk} {b : Blk} (hfree : b.free = true)
    (hne : b.addr + 24 ≠ ptr) (h : Joinable ptr (pre ++ b :: post)) :
    Joinable ptr (pre ++ (takenBlock need b ++ post)) := by
  obtain ⟨hpre, hb, -⟩ := List.isChain_append.mp h
  have hused : ∀ n, ¬ Freeable ptr ⟨b.addr, n, false⟩ := by
    rintro n (hf | ha)
    · cases hf
    · exact hne ha
  have hnext : ∀ c ∈ post.head?, Freeable ptr c → b.addr + 24 + b.size = c.addr := fun c hc hf =>
    (List.isChain_cons.mp hb).1 c hc (.inl hfree) hf
  simp only [takenBlock]
  split
  · refine List.isChain_append.mpr ⟨hpre, ?_, fun x hx y hy _ hf => ?_⟩
    · refine List.isChain_cons_cons.mpr ⟨fun hf _ => absurd hf (hused _),
        List.isChain_cons.mpr ⟨fun c hc _ hf => ?_, hb.tail⟩⟩
      rw [← hnext c hc hf]
      simp only
      omega
    · cases hy
      exact absurd hf (hused _)
  · refine List.isChain_append.mpr ⟨hpre, List.isChain_cons.mpr ⟨fun c hc hf _ => absurd hf (hused _), hb.tail⟩,
      fun x hx y hy _ hf => ?_⟩
    cases hy
    exact absurd hf (hused _)

theorem joinable_snoc {ptr : Nat} {b : Blk} (hb : ¬ Freeable ptr b) (h : Joinable ptr l) :
    Joinable ptr (l ++ [b]) := by
  refine List.isChain_append.mpr ⟨h, List.isChain_singleton _, fun x _ y hy _ hf => ?_⟩
  cases hy
  exact absurd hf hb

theorem alignUp_le {size : Nat} (h : size ≤ 2 ^ 64 - 16) : size ≤ alignUp size := by
  simp only [alignUp]
  omega

/-- What `malloc` gives: a block of its own that is large enough. -/
def Fresh (l l' : List Blk) (r size : Nat) : Prop :=
  r ≠ 0 → ∃ b ∈ l', b.free = false ∧ b.addr + 24 = r ∧ alignUp size ≤ b.size ∧
    ∀ c ∈ l, c.free = false → c.addr ≠ b.addr

/-- A block in use whose payload is at `ptr`. -/
def UsedAt (l : List Blk) (ptr : Nat) : Prop := ∃ c ∈ l, c.free = false ∧ c.addr + 24 = ptr

/-- What `malloc` does to the list. -/
def MallocDone (s : Process) (l : List Blk) (size : Nat) (r : Option (Nat × Process)) : Prop :=
  ∃ p s' l', r = some (p, s') ∧ Step s s' l l' ∧ Fresh l l' p size ∧
    ∀ ptr, UsedAt l ptr → Joinable ptr l → Joinable ptr l'

theorem malloc_found {size b : Nat} {mapped : Bool} (h0 : size ≠ 0) (hb : b ≠ 0)
    (hfind : findFree s.mem (alignUp size) s.rounds s.heapHead = some b) :
    malloc size mapped s =
      some (b + 24, { s with mem := block.setFree (split s.mem b (alignUp size)) b false }) := by
  simp only [malloc, h0, if_false, hfind, Option.bind_eq_bind, Option.bind_some, ne_eq, hb, not_false_eq_true,
    if_true]
  rfl

theorem malloc_extend {size b : Nat} {mapped : Bool} {s₁ : Process} (h0 : size ≠ 0)
    (hfind : findFree s.mem (alignUp size) s.rounds s.heapHead = some 0)
    (hext : extend (alignUp size) mapped s = (b, s₁)) :
    malloc size mapped s =
      if b = 0 then some (0, s₁)
      else if s₁.heapHead = 0 then some (b + 24, { s₁ with heapHead := b })
      else (lastBlock s₁.mem s₁.rounds s₁.heapHead).bind fun cur =>
        some (b + 24, { s₁ with mem := block.setNext s₁.mem cur b }) := by
  simp only [malloc, h0, if_false, hfind, Option.bind_eq_bind, Option.bind_some, ne_eq, not_true_eq_false, hext]
  rfl

/-- `malloc` from a block of the list. -/
theorem Tidy.malloc_old {size : Nat} {mapped : Bool} {pre post : List Blk} {b : Blk}
    (h : Tidy s (pre ++ b :: post)) (h0 : size ≠ 0)
    (hfit : b.free = true ∧ alignUp size ≤ b.size)
    (hfind : findFree s.mem (alignUp size) s.rounds s.heapHead = some b.addr) :
    MallocDone s (pre ++ b :: post) size (malloc size mapped s) := by
  have hb0 : b.addr ≠ 0 := (h.listed.mem b (by simp)).1
  have hother : ∀ c ∈ pre ++ b :: post, c.free = false → c.addr ≠ b.addr := by
    intro c hc hu
    have hcb : c ≠ b := by
      rintro rfl
      rw [hfit.1] at hu
      cases hu
    have := h.ordered.either (b := b) (by simp) hc hcb
    simp only [show block.hdr = 24 from rfl] at this
    omega
  refine ⟨b.addr + 24, _, _, malloc_found h0 hb0 hfind, h.take hfit, fun _ => ?_, ?_⟩
  · refine ⟨⟨b.addr, if alignUp size + 40 ≤ b.size then alignUp size else b.size, false⟩, ?_, rfl, rfl, ?_, hother⟩
    · simp only [takenBlock]
      split <;> simp
    · have := hfit.2
      simp only
      split <;> omega
  · rintro ptr ⟨c, hc, hu, hptr⟩ hj
    refine joinable_takenBlock hfit.1 (fun e => hother c hc hu ?_) hj
    omega

/-- `malloc` with a new block. -/
theorem Tidy.malloc_new {size : Nat} {mapped : Bool} (h : Tidy s l) (h0 : size ≠ 0)
    (hext : ExtendSafe s (alignUp size))
    (hfind : findFree s.mem (alignUp size) s.rounds s.heapHead = some 0) :
    MallocDone s l size (malloc size mapped s) := by
  rcases extend_spec mapped h hext with hfail | ⟨hnew, hend⟩
  · exact ⟨0, s, l, by rw [malloc_extend h0 hfind hfail, if_pos rfl], .refl h, fun hne => absurd rfl hne,
      fun _ _ hj => hj⟩
  have hne : s.heapEnd ≠ 0 := by
    have := h.brk
    have := h.start
    omega
  have hbelow : ∀ c ∈ l, c.addr < s.heapEnd := fun c hc => by
    have := (h.inside c hc).2
    omega
  have hfresh : Fresh l (l ++ [⟨s.heapEnd, alignUp size, false⟩]) (s.heapEnd + 24) size := fun _ =>
    ⟨⟨s.heapEnd, alignUp size, false⟩, by simp, rfl, rfl, Nat.le_refl _, fun c hc _ => Nat.ne_of_lt (hbelow c hc)⟩
  have hjoin : ∀ ptr, UsedAt l ptr → Joinable ptr l → Joinable ptr (l ++ [⟨s.heapEnd, alignUp size, false⟩]) := by
    rintro ptr ⟨c, hc, -, hptr⟩ hj
    refine joinable_snoc ?_ hj
    rintro (hf | ha)
    · cases hf
    · have := hbelow c hc
      simp only at ha
      omega
  rw [MallocDone, malloc_extend h0 hfind hnew, if_neg hne]
  rcases List.eq_nil_or_concat' l with rfl | ⟨pre, a, rfl⟩
  · have hhead : (extended s (alignUp size)).heapHead = 0 := h.listed
    rw [if_pos hhead]
    exact ⟨s.heapEnd + 24, _, _, rfl, Tidy.extend_step (h.extend_first hend) rfl, hfresh, hjoin⟩
  · have hhead : (extended s (alignUp size)).heapHead ≠ 0 := by
      obtain ⟨c, hpre, hlast⟩ := Layout.Seg.append.mp h.listed
      cases pre with
      | nil =>
          rw [show (extended s (alignUp size)).heapHead = c from hpre]
          exact hlast.2.1
      | cons d pre => exact hpre.2.1
    have hold := (extended_headers h hend).2
    have hlast : lastBlock (extended s (alignUp size)).mem (extended s (alignUp size)).rounds
        (extended s (alignUp size)).heapHead = some a.addr := by
      refine lastBlock_spec (h.listed.congr hold) ?_
      have hlen := h.length_lt
      simp only [List.length_append, List.length_cons, List.length_nil, Process.rounds, extended,
        show block.hdr = 24 from rfl] at hlen ⊢
      omega
    rw [if_neg hhead, hlast]
    exact ⟨s.heapEnd + 24, _, _, rfl, Tidy.extend_step (h.extend_last hend) rfl, hfresh, hjoin⟩

/-- **`malloc`** takes a block from the list, or puts a new one at its end, or fails and leaves all as it was. -/
theorem malloc_spec {size : Nat} (mapped : Bool) (h : Tidy s l) (hsafe : MallocSafe s size) :
    MallocDone s l size (malloc size mapped s) := by
  obtain ⟨-, hroom⟩ := hsafe
  rw [h.walk] at hroom
  by_cases h0 : size = 0
  · exact ⟨0, s, l, by simp [malloc, h0], .refl h, fun hne => absurd rfl hne, fun _ _ hj => hj⟩
  rcases findFree_spec (alignUp size) h.listed h.length_lt with
    ⟨hfind, hnone⟩ | ⟨pre, b, post, rfl, hfit, hfind⟩
  · refine h.malloc_new h0 ?_ hfind
    rcases hroom with ⟨b, hb, hfit⟩ | hext
    · exact absurd hfit (hnone b hb)
    · exact hext
  · exact h.malloc_old h0 hfit hfind

/-- **`free`** of a block in use, when the neighbours it joins touch. -/
theorem free_spec {ptr : Nat} (h : Tidy s l) (hused : UsedAt l ptr) (hjoin : Joinable ptr l) :
    ∃ s' l', free ptr s = some s' ∧ Tidy s' l' ∧ s'.heapEnd = s.heapEnd ∧
      (∀ b ∈ l, b.free = false → b.addr + 24 ≠ ptr → b ∈ l') ∧
      ∀ r : Nat × Nat, 0 < r.2 → (∀ b ∈ l, Clear r b) → ∀ b ∈ l', Clear r b := by
  obtain ⟨b, hb, hu, rfl⟩ := hused
  obtain ⟨pre, post, rfl⟩ := List.append_of_mem hb
  have htidy := h.setFree (b := b) true
  obtain ⟨m, hm, hseg, -⟩ := Layout.mergePass_spec htidy.listed htidy.ordered
    (fun c hc => by
      have := htidy.bounded hc
      simp only [show block.hdr = 24 from rfl]
      omega) htidy.length_lt
  have htouch : block.Touching (pre ++ { b with free := true } :: post) := by
    obtain ⟨hpre, hbp, hedge⟩ := List.isChain_append.mp hjoin
    refine List.isChain_append.mpr ⟨hpre.imp fun _ _ h hf hc => h (.inl hf) (.inl hc),
      List.isChain_cons.mpr ⟨fun c hc _ hcf => (List.isChain_cons.mp hbp).1 c hc (.inr rfl) (.inl hcf),
        hbp.tail.imp fun _ _ h hf hc => h (.inl hf) (.inl hc)⟩, fun x hx y hy hxf _ => ?_⟩
    cases hy
    exact hedge x hx b (by simp) (.inl hxf) (.inr rfl)
  refine ⟨{ s with mem := m }, block.coalesce (pre ++ { b with free := true } :: post), ?_,
    ⟨h.start, h.stack, h.brk, hseg, htidy.ordered.coalesce, ?_⟩, rfl, fun c hc hcu hne => ?_, fun r hr hl => ?_⟩
  · rw [free, if_neg (by omega), show b.addr + 24 - block.hdr = b.addr from Nat.add_sub_cancel _ _]
    have : block.mergePass s.rounds (block.setFree s.mem b.addr true) s.heapHead = some m := hm
    rw [this]
    rfl
  · refine htouch.coalesce (P := fun c => s.heapStart ≤ c.addr ∧ c.addr + 24 + c.size ≤ s.heapEnd)
      (fun c d hc hd e => ?_) htidy.inside
    simp only [show block.hdr = 24 from rfl] at e ⊢
    omega
  · refine Layout.mem_coalesce_of_used ?_ hcu
    simp only [List.mem_append, List.mem_cons] at hc ⊢
    rcases hc with hc | rfl | hc
    · exact .inl hc
    · exact absurd rfl hne
    · exact .inr (.inr hc)
  · refine htouch.coalesce (P := Clear r) (fun c d hc hd e => ?_) fun c hc => ?_
    · simp only [Clear, show block.hdr = 24 from rfl] at hc hd e ⊢
      omega
    · simp only [List.mem_append, List.mem_cons] at hc
      rcases hc with hc | rfl | hc
      · exact hl c (by simp [hc])
      · exact hl b (by simp)
      · exact hl c (by simp [hc])

end Specs

end Blackmount.Libc
