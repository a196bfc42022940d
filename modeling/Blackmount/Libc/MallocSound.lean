import Blackmount.Libc.Blocks

/-!
# Libc — `malloc` over whole runs

A process allocates, frees what it got, writes where it may, and moves its break with `mmap` and `brk`.

* `HeapSound`: payloads are large enough, below the break, and apart from each other, from the headers
  and from what `mmap` returned.
* `malloc_sound`: it holds after every step of a run in which no size wraps, the break does not sink, and
  no free joins blocks with a gap between them.
* `free_joins_mapping`: otherwise a block can come to span a region that `mmap` returned.
-/

namespace Blackmount.Libc
open Blackmount.Lib

inductive HeapOp where
  | malloc (size : Nat) (mapped : Bool)
  | calloc (nmemb size : Nat) (mapped : Bool)
  | realloc (ptr size : Nat) (mapped : Bool)
  | zalloc (size : Nat) (mapped : Bool)
  | free (ptr : Nat)
  | mmap (length : Nat) (mapped : Bool)
  | brk (addr : Nat) (mapped : Bool)
  | store (addr : Nat) (value : UInt8)

/-- The process, its live allocations with the sizes asked for, and the regions `mmap` returned. -/
structure UserState where
  proc : Process
  live : List (Nat × Nat) := []
  regions : List (Nat × Nat) := []

namespace UserState

/-- An allocation of `size` bytes returned `r`. -/
def gain (s : UserState) (size : Nat) (r : Nat × Process) : UserState :=
  { s with proc := r.2, live := if r.1 = 0 then s.live else (r.1, size) :: s.live }

/-- The pointer is no longer live. -/
def lose (s : UserState) (ptr : Nat) : UserState := { s with live := s.live.filter fun q => q.1 ≠ ptr }

end UserState

def heapStep (s : UserState) : HeapOp → Option UserState
  | .malloc size mapped => (malloc size mapped s.proc).map (s.gain size)
  | .calloc nmemb size mapped => (calloc nmemb size mapped s.proc).map (s.gain (nmemb * size % 2 ^ 64))
  | .realloc ptr size mapped => (realloc ptr size mapped s.proc).map fun r =>
      if r.1 = 0 ∧ size ≠ 0 then s.gain size r else (s.lose ptr).gain size r
  | .zalloc size mapped => (zalloc size mapped s.proc).map (s.gain size)
  | .free ptr => (free ptr s.proc).map fun p => { s.lose ptr with proc := p }
  | .mmap length mapped =>
      let r := sysMmap length mapped s.proc
      some { s with proc := r.2, regions := (r.1.map fun a => (a, length)).toList ++ s.regions }
  | .brk addr mapped => some { s with proc := (procBrk addr mapped s.proc).2 }
  | .store addr value => some { s with proc := { s.proc with mem := Function.update s.proc.mem addr value } }

/-! ### The property -/

/-- The bytes of the payload at `p`. -/
def payloadSize (s : Process) (p : Nat) : Nat := block.size s.mem (p - block.hdr)

def InPayload (s : Process) (p a : Nat) : Prop := p ≤ a ∧ a < p + payloadSize s p

structure HeapSound (s : UserState) : Prop where
  enough : ∀ q ∈ s.live, q.2 ≤ payloadSize s.proc q.1
  below : ∀ q ∈ s.live, q.1 + payloadSize s.proc q.1 ≤ s.proc.heapEnd
  apart : s.live.Pairwise fun q r => ∀ a, ¬ (InPayload s.proc q.1 a ∧ InPayload s.proc r.1 a)
  headers : ∀ q ∈ s.live, ∀ b ∈ block.walk s.proc.mem s.proc.rounds s.proc.heapHead, ∀ a,
    InPayload s.proc q.1 a → ¬ block.InHeader b.addr a
  regions : ∀ q ∈ s.live, ∀ r ∈ s.regions, ∀ a, InPayload s.proc q.1 a → ¬ (r.1 ≤ a ∧ a < r.1 + r.2)

/-- The process frees only what is live, and writes only to what it asked for. -/
def HeapUse (s : UserState) : HeapOp → Prop
  | .free ptr => ptr = 0 ∨ ∃ q ∈ s.live, q.1 = ptr
  | .realloc ptr _ _ => ptr = 0 ∨ ∃ q ∈ s.live, q.1 = ptr
  | .store addr _ => ∃ q ∈ s.live ++ s.regions, q.1 ≤ addr ∧ addr < q.1 + q.2
  | _ => True

/-! ### The condition -/

/-- The length is not rounded to nothing, and is no decrement that is granted. -/
def MmapSafe (s : Process) (length : Nat) : Prop :=
  length + 4095 < 2 ^ 64 ∧ (roundPage length < 2 ^ 63 ∨ s.heapEnd - s.heapStart < 2 ^ 64 - roundPage length)

/-- The break is not lowered. -/
def BrkSafe (s : Process) (addr : Nat) : Prop := addr = 0 ∨ addr < s.heapStart ∨ s.heapEnd ≤ addr

/-- What a free joins touches. -/
def FreeSafe (s : Process) (ptr : Nat) : Prop := Joinable ptr (block.walk s.mem s.rounds s.heapHead)

def HeapSafe (s : UserState) : HeapOp → Prop
  | .malloc size _ => MallocSafe s.proc size
  | .zalloc size _ => MallocSafe s.proc size
  | .calloc nmemb size _ => nmemb * size < 2 ^ 64 → MallocSafe s.proc (nmemb * size)
  | .realloc ptr size _ => size ≤ 2 ^ 64 - 16 ∧
      (ptr ≠ 0 → size = 0 ∨ payloadSize s.proc ptr < alignUp size → FreeSafe s.proc ptr) ∧
      (ptr = 0 ∨ payloadSize s.proc ptr < alignUp size → MallocSafe s.proc size)
  | .free ptr => FreeSafe s.proc ptr
  | .mmap length _ => MmapSafe s.proc length
  | .brk addr _ => BrkSafe s.proc addr
  | .store _ _ => True

/-! ### The invariant -/

/-- Each live allocation has a block of its own, in use, and regions are apart from all blocks. -/
structure UserInv (s : UserState) (l : List Blk) : Prop where
  tidy : Tidy s.proc l
  live : ∀ q ∈ s.live, ∃ b ∈ l, b.free = false ∧ b.addr + 24 = q.1 ∧ q.2 ≤ b.size
  distinct : (s.live.map Prod.fst).Nodup
  regions : ∀ r ∈ s.regions, 0 < r.2 ∧ r.1 + r.2 ≤ s.proc.heapEnd ∧ ∀ b ∈ l, Clear r b

variable {p : Process} {mapped : Bool}

section Invariant

variable {s : UserState} {l : List Blk}

theorem Tidy.payloadSize (h : Tidy p l) {b : Blk} (hb : b ∈ l) {ptr : Nat} (hptr : b.addr + 24 = ptr) :
    Libc.payloadSize p ptr = b.size := by
  rw [Libc.payloadSize, ← hptr, show b.addr + 24 - block.hdr = b.addr from Nat.add_sub_cancel _ _,
    (h.listed.mem b hb).2.1]

theorem UserInv.sound (h : UserInv s l) : HeapSound s := by
  have hin : ∀ {q : Nat × Nat} {b : Blk} {a : Nat}, b ∈ l → b.addr + 24 = q.1 → InPayload s.proc q.1 a →
      b.addr + 24 ≤ a ∧ a < b.addr + 24 + b.size := by
    intro q b a hb hq ha
    rw [InPayload, h.tidy.payloadSize hb hq, ← hq] at ha
    exact ha
  constructor
  · intro q hq
    obtain ⟨b, hb, -, ha, hsize⟩ := h.live q hq
    rw [h.tidy.payloadSize hb ha]
    exact hsize
  · intro q hq
    obtain ⟨b, hb, -, ha, hsize⟩ := h.live q hq
    rw [h.tidy.payloadSize hb ha, ← ha]
    exact (h.tidy.inside b hb).2
  · refine (List.pairwise_map.mp h.distinct).imp_of_mem fun {q r} hq hr hne a => ?_
    rintro ⟨h₁, h₂⟩
    obtain ⟨b, hb, -, hbq, -⟩ := h.live q hq
    obtain ⟨c, hc, -, hcr, -⟩ := h.live r hr
    have hqa := hin hb hbq h₁
    have hra := hin hc hcr h₂
    have hbc : b ≠ c := by
      rintro rfl
      exact hne (hbq.symm.trans hcr)
    have := h.tidy.ordered.either hc hb hbc
    simp only [show block.hdr = 24 from rfl] at this
    omega
  · intro q hq b hb a ha hh
    rw [h.tidy.walk] at hb
    obtain ⟨c, hc, -, hcq, -⟩ := h.live q hq
    have hqa := hin hc hcq ha
    simp only [Layout.InHeader, show block.hdr = 24 from rfl] at hh
    by_cases e : b = c
    · rw [e] at hh
      omega
    · have := h.tidy.ordered.either hc hb e
      simp only [show block.hdr = 24 from rfl] at this
      omega
  · intro q hq r hr a ha hra
    obtain ⟨b, hb, -, hbq, -⟩ := h.live q hq
    have hqa := hin hb hbq ha
    have := (h.regions r hr).2.2 b hb
    simp only [Clear] at this
    omega

/-- Writes inside one block's payload. -/
theorem Tidy.write (h : Tidy p l) {b : Blk} (hb : b ∈ l) {m : Bytes}
    (hm : ∀ j, ¬ (b.addr + 24 ≤ j ∧ j < b.addr + 24 + b.size) → m j = p.mem j) : Tidy { p with mem := m } l := by
  refine h.payload fun c hc j hj => hm j fun hjb => ?_
  simp only [Layout.InHeader, show block.hdr = 24 from rfl] at hj
  by_cases e : c = b
  · rw [e] at hj
    omega
  · have := h.ordered.either hb hc e
    simp only [show block.hdr = 24 from rfl] at this
    omega

/-- The list changes, and no live allocation loses its block. -/
theorem UserInv.step {l' : List Blk} (h : UserInv s l) (hs : Step s.proc p l l') :
    UserInv { s with proc := p } l' := by
  refine ⟨hs.tidy, fun q hq => ?_, h.distinct, fun r hr => ?_⟩
  · obtain ⟨b, hb, hu, hrest⟩ := h.live q hq
    exact ⟨b, hs.kept b hb hu, hu, hrest⟩
  · obtain ⟨hpos, hle, hclear⟩ := h.regions r hr
    exact ⟨hpos, Nat.le_trans hle hs.grows, hs.clear r hpos hle hclear⟩

/-- **An allocation.** -/
theorem UserInv.gain {l' : List Blk} {r size : Nat} (h : UserInv s l) (hs : Step s.proc p l l')
    (hf : Fresh l l' r size) (hsize : size ≤ alignUp size) : UserInv (s.gain size (r, p)) l' := by
  have h' := h.step hs
  simp only [UserState.gain]
  by_cases hr : r = 0
  · rw [if_pos hr]
    exact h'
  · rw [if_neg hr]
    obtain ⟨b, hb, hu, ha, hbig, hnew⟩ := hf hr
    refine ⟨h'.tidy, fun q hq => ?_, List.nodup_cons.mpr ⟨fun hmem => ?_, h'.distinct⟩, h'.regions⟩
    · rcases List.mem_cons.mp hq with rfl | hq
      · exact ⟨b, hb, hu, ha, Nat.le_trans hsize hbig⟩
      · exact h'.live q hq
    · obtain ⟨q, hq, hqr⟩ := List.mem_map.mp hmem
      obtain ⟨c, hc, hcu, hca, -⟩ := h.live q hq
      have := hnew c hc hcu
      simp only at hqr
      omega

/-- An allocation that is then written to. -/
theorem Step.write {p p' : Process} {l' : List Blk} {r size n : Nat} {src : Bytes} (hs : Step p p' l l')
    (hf : Fresh l l' r size) (hn : n ≤ alignUp size) (hr : r ≠ 0) :
    Step p { p' with mem := splice p'.mem r n src } l l' := by
  obtain ⟨b, hb, -, ha, hbig, -⟩ := hf hr
  refine ⟨hs.tidy.write hb fun j hj => splice_out _ _ ?_, hs.grows, hs.kept, hs.clear⟩
  omega

/-- `free` of a live allocation. -/
theorem UserInv.free {ptr : Nat} (h : UserInv s l) (hptr : ∃ q ∈ s.live, q.1 = ptr) (hjoin : Joinable ptr l) :
    ∃ p l', Libc.free ptr s.proc = some p ∧ UserInv { s.lose ptr with proc := p } l' := by
  obtain ⟨q, hq, rfl⟩ := hptr
  obtain ⟨b, hb, hu, ha, -⟩ := h.live q hq
  obtain ⟨p, l', hr, htidy, hend, hkept, hclear⟩ := free_spec h.tidy ⟨b, hb, hu, ha⟩ hjoin
  refine ⟨p, l', hr, htidy, fun r hr => ?_, h.distinct.sublist (List.filter_sublist.map _), fun r hr => ?_⟩
  · obtain ⟨hr, hne⟩ := List.mem_filter.mp hr
    obtain ⟨c, hc, hcu, hca, hsize⟩ := h.live r hr
    exact ⟨c, hkept c hc hcu (by rw [hca]; simpa using hne), hcu, hca, hsize⟩
  · obtain ⟨hpos, hle, hcl⟩ := h.regions r hr
    exact ⟨hpos, by rw [hend]; exact hle, hclear r hpos hcl⟩

/-- A live pointer is not `NULL`. -/
theorem UserInv.lose_null (h : UserInv s l) : s.lose 0 = s := by
  simp only [UserState.lose]
  have : s.live.filter (fun q => q.1 ≠ 0) = s.live := by
    refine List.filter_eq_self.mpr fun q hq => ?_
    obtain ⟨b, -, -, ha, -⟩ := h.live q hq
    simp only [ne_eq, decide_eq_true_eq]
    omega
  rw [this]

theorem UserInv.free_null (h : UserInv s l) :
    Libc.free 0 s.proc = some s.proc ∧ UserInv { s.lose 0 with proc := s.proc } l := by
  rw [h.lose_null]
  exact ⟨rfl, h⟩

/-- What a step has to show. -/
def StepDone (r : Option UserState) : Prop := ∃ s' l', r = some s' ∧ UserInv s' l'

theorem UserInv.malloc {size : Nat} (mapped : Bool) (h : UserInv s l) (hsafe : MallocSafe s.proc size) :
    StepDone ((Libc.malloc size mapped s.proc).map (s.gain size)) := by
  obtain ⟨r, p, l', hr, hs, hf, -⟩ := malloc_spec mapped h.tidy hsafe
  exact ⟨_, l', by rw [hr]; rfl, h.gain hs hf (alignUp_le hsafe.1)⟩

/-- `calloc` and `zalloc`: the payload is cleared as far as it was asked for. -/
theorem UserInv.cleared {size : Nat} (h : UserInv s l) (hsafe : MallocSafe s.proc size) :
    StepDone (((Libc.malloc size mapped s.proc).map (clearPayload size)).map (s.gain size)) := by
  obtain ⟨r, p, l', hr, hs, hf, -⟩ := malloc_spec mapped h.tidy hsafe
  have hle := alignUp_le hsafe.1
  rw [hr]
  by_cases hr0 : r = 0
  · refine ⟨_, l', rfl, ?_⟩
    rw [clearPayload, if_pos hr0]
    exact h.gain hs hf hle
  · refine ⟨_, l', rfl, ?_⟩
    rw [clearPayload, if_neg hr0]
    exact h.gain (hs.write hf hle hr0) hf hle

theorem calloc_overflow {nmemb size : Nat} (h : 2 ^ 64 ≤ nmemb * size) :
    nmemb ≠ 0 ∧ nmemb * size % 2 ^ 64 / nmemb ≠ size := by
  have hpos : 0 < nmemb := by
    rcases Nat.eq_zero_or_pos nmemb with rfl | h
    · simp at h
    · exact h
  refine ⟨by omega, Nat.ne_of_lt ?_⟩
  rw [Nat.div_lt_iff_lt_mul hpos, Nat.mul_comm size]
  exact Nat.lt_of_lt_of_le (Nat.mod_lt _ (by decide)) h

theorem UserInv.calloc {nmemb size : Nat} (h : UserInv s l)
    (hsafe : nmemb * size < 2 ^ 64 → MallocSafe s.proc (nmemb * size)) :
    StepDone ((Libc.calloc nmemb size mapped s.proc).map (s.gain (nmemb * size % 2 ^ 64))) := by
  simp only [Libc.calloc]
  by_cases hlt : nmemb * size < 2 ^ 64
  · rw [Nat.mod_eq_of_lt hlt]
    split
    · exact ⟨s, l, rfl, h⟩
    · exact h.cleared (hsafe hlt)
  · rw [if_pos (calloc_overflow (by omega))]
    exact ⟨s, l, rfl, h⟩

theorem UserInv.zalloc {size : Nat} (h : UserInv s l) (hsafe : MallocSafe s.proc size) :
    StepDone ((Libc.zalloc size mapped s.proc).map (s.gain size)) := by
  simp only [Libc.zalloc]
  split
  · exact ⟨s, l, rfl, h⟩
  · exact h.cleared hsafe

/-- `realloc` that moves: a new block is filled, and the old one freed. -/
theorem UserInv.move {ptr size : Nat} (h : UserInv s l) {q : Nat × Nat} (hq : q ∈ s.live)
    (hptr : q.1 = ptr) (hsafe : MallocSafe s.proc size) (hjoin : Joinable ptr l) (h0 : size ≠ 0)
    (hgrow : Libc.payloadSize s.proc ptr < alignUp size) :
    StepDone ((Libc.realloc ptr size mapped s.proc).map fun r =>
      if r.1 = 0 ∧ size ≠ 0 then s.gain size r else (s.lose ptr).gain size r) := by
  obtain ⟨b, hb, hu, ha, -⟩ := h.live q hq
  rw [hptr] at ha
  have hne : ptr ≠ 0 := by omega
  obtain ⟨r, p, l', hr, hs, hf, hjoin'⟩ := malloc_spec mapped h.tidy hsafe
  have hle := alignUp_le hsafe.1
  have hbig : ¬ alignUp size ≤ block.size s.proc.mem (ptr - block.hdr) := by
    simp only [Libc.payloadSize] at hgrow
    omega
  by_cases hr0 : r = 0
  · refine ⟨s.gain size (r, p), l', ?_, h.gain hs hf hle⟩
    rw [hr0] at hr
    simp only [Libc.realloc, hne, if_false, h0, hbig, hr, Option.bind_eq_bind, Option.bind_some, if_true, hr0,
      Option.pure_def, Option.map_some, ne_eq, not_false_eq_true, and_self]
  · have hb' := hs.kept b hb hu
    have hcopy : block.size p.mem (ptr - block.hdr) < alignUp size := by
      have h₁ := hs.tidy.payloadSize hb' ha
      have h₂ := h.tidy.payloadSize hb ha
      rw [h₂] at hgrow
      rw [Libc.payloadSize] at h₁
      omega
    have hs' : Step s.proc { p with
        mem := splice p.mem r (block.size p.mem (ptr - block.hdr)) (fun i => p.mem (ptr + i)) } l l' :=
      hs.write hf (Nat.le_of_lt hcopy) hr0
    have hgain := h.gain hs' hf hle
    have hrp : r ≠ ptr := by
      obtain ⟨c, -, -, hca, -, hnew⟩ := hf hr0
      have := hnew b hb hu
      omega
    have hlive : (s.gain size (r, { p with
        mem := splice p.mem r (block.size p.mem (ptr - block.hdr)) (fun i => p.mem (ptr + i)) })).live =
        (r, size) :: s.live := if_neg hr0
    obtain ⟨p', l'', hfree, hinv⟩ := hgain.free ⟨q, by rw [hlive]; simp [hq], hptr⟩
      (hjoin' ptr ⟨b, hb, hu, ha⟩ hjoin)
    refine ⟨_, l'', ?_, hinv⟩
    have hfree' : Libc.free ptr { p with
        mem := splice p.mem r (block.size p.mem (ptr - block.hdr)) (fun i => p.mem (ptr + i)) } = some p' := hfree
    simp only [Libc.realloc, hne, if_false, h0, hbig, hr, Option.bind_eq_bind, Option.bind_some, hr0, hcopy, if_true,
      hfree', Option.pure_def, Option.map_some, false_and]
    simp only [UserState.gain, UserState.lose, hr0, if_false, List.filter_cons, ne_eq, hrp, not_false_eq_true,
      decide_true, if_true]

theorem UserInv.realloc {ptr size : Nat} (h : UserInv s l)
    (huse : ptr = 0 ∨ ∃ q ∈ s.live, q.1 = ptr) (hsize : size ≤ 2 ^ 64 - 16)
    (hfree : ptr ≠ 0 → size = 0 ∨ Libc.payloadSize s.proc ptr < alignUp size → FreeSafe s.proc ptr)
    (hmalloc : ptr = 0 ∨ Libc.payloadSize s.proc ptr < alignUp size → MallocSafe s.proc size) :
    StepDone ((Libc.realloc ptr size mapped s.proc).map fun r =>
      if r.1 = 0 ∧ size ≠ 0 then s.gain size r else (s.lose ptr).gain size r) := by
  simp only [FreeSafe, h.tidy.walk] at hfree
  rcases huse with rfl | ⟨q, hq, hptr⟩
  · obtain ⟨s', l', hr, hinv⟩ := h.malloc mapped (hmalloc (.inl rfl))
    refine ⟨s', l', ?_, hinv⟩
    simp only [Libc.realloc, if_true, h.lose_null, ite_self]
    exact hr
  obtain ⟨b, hb, -, ha, hbs⟩ := h.live q hq
  rw [hptr] at ha
  have hne : ptr ≠ 0 := by omega
  by_cases h0 : size = 0
  · obtain ⟨p, l', hr, hinv⟩ := h.free ⟨q, hq, hptr⟩ (hfree hne (.inl h0))
    refine ⟨_, l', ?_, hinv⟩
    simp only [Libc.realloc, hne, if_false, h0, if_true, hr, Option.map_some, ne_eq, not_true_eq_false, and_false]
    rfl
  by_cases hgrow : Libc.payloadSize s.proc ptr < alignUp size
  · exact h.move hq hptr (hmalloc (.inr hgrow)) (hfree hne (.inr hgrow)) h0 hgrow
  · have hfits : alignUp size ≤ block.size s.proc.mem (ptr - block.hdr) := by
      simp only [Libc.payloadSize] at hgrow
      omega
    refine ⟨(s.lose ptr).gain size (ptr, s.proc), l, ?_, ?_⟩
    · simp only [Libc.realloc, hne, if_false, h0, hfits, if_true, Option.map_some, false_and]
    · simp only [UserState.gain, hne, if_false, UserState.lose]
      refine ⟨h.tidy, fun r hr => ?_, List.nodup_cons.mpr ⟨fun hmem => ?_, ?_⟩, h.regions⟩
      · rcases List.mem_cons.mp hr with rfl | hr
        · obtain ⟨c, hc, hcu, hca, -⟩ := h.live q hq
          rw [hptr] at hca
          have := h.tidy.payloadSize hc hca
          rw [Libc.payloadSize] at this
          exact ⟨c, hc, hcu, hca, by have := alignUp_le hsize; simp only; omega⟩
        · exact h.live r (List.mem_filter.mp hr).1
      · obtain ⟨r, hr, hrp⟩ := List.mem_map.mp hmem
        have := (List.mem_filter.mp hr).2
        simp [hrp] at this
      · exact h.distinct.sublist (List.filter_sublist.map _)

theorem roundPage_eq {n : Nat} (h : n + 4095 < 2 ^ 64) : n ≤ roundPage n ∧ roundPage n < 2 ^ 64 := by
  simp only [roundPage]
  omega

/-- A break that only rises. -/
theorem Tidy.raise {e : Nat} (h : Tidy p l) (hlow : p.heapEnd ≤ e) (hhigh : e ≤ p.stackVaddrBase) :
    Step p { p with heapEnd := e } l l := by
  refine ⟨⟨h.start, h.stack, ⟨Nat.le_trans h.brk.1 hlow, hhigh⟩, h.listed, h.ordered, fun b hb => ?_⟩, hlow,
    fun _ hb _ => hb, fun _ _ _ hl => hl⟩
  have := h.inside b hb
  exact ⟨this.1, Nat.le_trans this.2 hlow⟩

/-- `proc_brk` with a break that is not lowered. -/
theorem procBrk_spec {addr : Nat} (mapped : Bool) (h : Tidy p l) (hsafe : BrkSafe p addr) :
    ((procBrk addr mapped p).2 = p ∧ ((procBrk addr mapped p).1 = failed ∨ addr = 0)) ∨
      procBrk addr mapped p = (p.heapEnd, { p with heapEnd := addr }) ∧ p.heapEnd ≤ addr ∧ addr ≤ p.stackVaddrBase := by
  have hstack := h.stack
  simp only [procBrk]
  split
  · next h0 => exact .inl ⟨rfl, .inr h0⟩
  rw [if_pos (show p.stackVaddrBase ≠ 0 by omega)]
  split
  · exact .inl ⟨rfl, .inl rfl⟩
  split
  · exact .inl ⟨rfl, .inl rfl⟩
  · refine .inr ⟨rfl, ?_, by omega⟩
    rcases hsafe with h0 | hlow | hhigh
    · omega
    · omega
    · exact hhigh

theorem UserInv.brk {addr : Nat} (h : UserInv s l) (hsafe : BrkSafe s.proc addr) :
    StepDone (some { s with proc := (procBrk addr mapped s.proc).2 }) := by
  refine ⟨_, l, rfl, ?_⟩
  rcases procBrk_spec mapped h.tidy hsafe with ⟨e, -⟩ | ⟨e, hlow, hhigh⟩
  · rw [e]
    exact h
  · rw [e]
    exact h.step (h.tidy.raise hlow hhigh)

/-- `sys_mmap` fails, or gives the memory up to its new break. -/
theorem sysMmap_spec {length : Nat} (mapped : Bool) (h : Tidy p l) (hsafe : MmapSafe p length) :
    sysMmap length mapped p = (none, p) ∨
      ∃ e, sysMmap length mapped p = (some p.heapEnd, { p with heapEnd := e }) ∧ 0 < length ∧
        p.heapEnd + length ≤ e ∧ e ≤ p.stackVaddrBase := by
  obtain ⟨hlen, hinc⟩ := hsafe
  have hstack := h.stack
  have hbrk := h.brk
  have hstart := h.start
  obtain ⟨hle, hlt⟩ := roundPage_eq hlen
  have hnf : p.heapEnd ≠ failed := by
    simp only [failed]
    omega
  simp only [sysMmap]
  split
  · exact .inl rfl
  · next h0 =>
      have hr0 : roundPage length ≠ 0 := by omega
      simp only [procSbrk, hr0, if_false]
      split
      · next hpos =>
          have hmod : (p.heapEnd + roundPage length) % 2 ^ 64 = p.heapEnd + roundPage length :=
            Nat.mod_eq_of_lt (by omega)
          have hge : ¬ p.heapEnd + roundPage length < p.heapEnd := by omega
          simp only [hmod, hge, if_false]
          have hup : BrkSafe p (p.heapEnd + roundPage length) := .inr (.inr (by omega))
          rcases procBrk_spec mapped h hup with
            ⟨e, hfail⟩ | ⟨e, -, hhigh⟩
          · have hfail : (procBrk (p.heapEnd + roundPage length) mapped p).1 = failed := by
              rcases hfail with hfail | hzero
              · exact hfail
              · omega
            left
            simp only [hfail, if_true, e]
          · right
            refine ⟨p.heapEnd + roundPage length, ?_, by omega, by omega, hhigh⟩
            rw [e]
            simp only [hnf, if_false]
      · have hdec : p.heapEnd - p.heapStart < 2 ^ 64 - roundPage length := by omega
        left
        simp only [hdec, if_true]

theorem UserInv.mmap {length : Nat} (h : UserInv s l) (hsafe : MmapSafe s.proc length) :
    StepDone (some { s with
      proc := (sysMmap length mapped s.proc).2
      regions := ((sysMmap length mapped s.proc).1.map fun a => (a, length)).toList ++ s.regions }) := by
  refine ⟨_, l, rfl, ?_⟩
  rcases sysMmap_spec mapped h.tidy hsafe with e | ⟨top, e, hpos, hlow, hhigh⟩
  · rw [e]
    exact h
  · rw [e]
    have h' := h.step (h.tidy.raise (e := top) (by omega) hhigh)
    refine ⟨h'.tidy, h'.live, h'.distinct, fun r hr => ?_⟩
    rcases List.mem_append.mp hr with hr | hr
    · simp only [Option.map_some, Option.toList_some, List.mem_singleton] at hr
      rw [hr]
      exact ⟨hpos, hlow, fun b hb => .inr (h.tidy.inside b hb).2⟩
    · exact h'.regions r hr

theorem UserInv.store {addr : Nat} {value : UInt8} (h : UserInv s l)
    (huse : ∃ q ∈ s.live ++ s.regions, q.1 ≤ addr ∧ addr < q.1 + q.2) :
    StepDone (some { s with proc := { s.proc with mem := Function.update s.proc.mem addr value } }) := by
  obtain ⟨q, hq, hlow, hhigh⟩ := huse
  refine ⟨_, l, rfl, ?_, h.live, h.distinct, h.regions⟩
  rcases List.mem_append.mp hq with hq | hq
  · obtain ⟨b, hb, -, ha, hsize⟩ := h.live q hq
    refine h.tidy.write hb fun j hj => Function.update_of_ne ?_ _ _
    rintro rfl
    exact hj ⟨by omega, by omega⟩
  · refine h.tidy.payload fun b hb j hj => Function.update_of_ne ?_ _ _
    rintro rfl
    have := (h.regions q hq).2.2 b hb
    simp only [Clear, Layout.InHeader, show block.hdr = 24 from rfl] at this hj
    omega

/-- One step of a process that uses the library as it may. -/
theorem UserInv.heapStep {o : HeapOp} (h : UserInv s l) (huse : HeapUse s o) (hsafe : HeapSafe s o) :
    StepDone (Libc.heapStep s o) := by
  cases o with
  | malloc size mapped => exact h.malloc mapped hsafe
  | calloc nmemb size mapped => exact h.calloc hsafe
  | realloc ptr size mapped => exact h.realloc huse hsafe.1 hsafe.2.1 hsafe.2.2
  | zalloc size mapped => exact h.zalloc hsafe
  | free ptr =>
      have hjoin : Joinable ptr l := by
        rw [← h.tidy.walk]
        exact hsafe
      rcases huse with rfl | hlive
      · obtain ⟨hr, hinv⟩ := h.free_null
        exact ⟨_, l, by rw [Libc.heapStep, hr]; rfl, hinv⟩
      · obtain ⟨p, l', hr, hinv⟩ := h.free hlive hjoin
        exact ⟨_, l', by rw [Libc.heapStep, hr]; rfl, hinv⟩
  | mmap length mapped => exact h.mmap hsafe
  | brk addr mapped => exact h.brk hsafe
  | store addr value => exact h.store huse

end Invariant

/-! ### Whole runs -/

def maxProcesses : Nat := 64

/-- A process that was just loaded: its code lies where user code may, its stack in its slot. -/
def Loaded (codeEnd slot : Nat) : Prop :=
  userCodeBase ≤ codeEnd ∧ codeEnd ≤ userCodeLimit ∧ slot < maxProcesses

theorem userInv_newProcess {codeEnd slot : Nat} (mem : Bytes) (h : Loaded codeEnd slot) :
    UserInv { proc := newProcess mem codeEnd slot } [] := by
  obtain ⟨hlow, hhigh, hslot⟩ := h
  simp only [userCodeBase, userCodeLimit, maxProcesses] at hlow hhigh hslot
  have hround : codeEnd ≤ roundPage codeEnd ∧ roundPage codeEnd ≤ 0x20000000 := by
    simp only [roundPage]
    omega
  refine ⟨⟨?_, ?_, ⟨Nat.le_refl _, ?_⟩, rfl, .nil, by simp⟩, by simp, .nil, by simp⟩
  · simp only [newProcess]
    omega
  · simp only [newProcess, userStackArena, userStackVsize]
    omega
  · simp only [newProcess, userStackArena, userStackVsize]
    omega

/-- **`malloc` over whole runs.**  In every run whose steps are safe, every call returns, and after every
step the payloads are large enough and apart. -/
theorem malloc_sound (mem : Bytes) {codeEnd slot : Nat} (hloaded : Loaded codeEnd slot) {os : List HeapOp}
    (huse : Meets heapStep HeapUse { proc := newProcess mem codeEnd slot } os)
    (hsafe : Meets heapStep HeapSafe { proc := newProcess mem codeEnd slot } os) :
    Along heapStep (fun _ _ s' => HeapSound s') { proc := newProcess mem codeEnd slot } os ∧
      (run heapStep { proc := newProcess mem codeEnd slot } os).isSome := by
  have hinit : ∃ l, UserInv { proc := newProcess mem codeEnd slot } l := ⟨[], userInv_newProcess mem hloaded⟩
  have hstep : ∀ s o, (∃ l, UserInv s l) → HeapUse s o ∧ HeapSafe s o →
      ∃ s', heapStep s o = some s' ∧ ∃ l, UserInv s' l := by
    rintro s o ⟨l, hI⟩ ⟨hu, hs⟩
    obtain ⟨s', l', hr, hI'⟩ := hI.heapStep hu hs
    exact ⟨s', hr, l', hI'⟩
  have hboth := huse.and hsafe
  constructor
  · have hkeep : ∀ s o s', (∃ l, UserInv s l) → HeapUse s o ∧ HeapSafe s o → heapStep s o = some s' →
        (∃ l, UserInv s' l) ∧ HeapSound s' := by
      intro s o s' hI hC hs
      obtain ⟨s₁, hr, l, hI₁⟩ := hstep s o hI hC
      rw [hs] at hr
      cases hr
      exact ⟨⟨l, hI₁⟩, hI₁.sound⟩
    exact along_of_inv hkeep hinit hboth
  · obtain ⟨s', hs'⟩ := run_defined hstep hinit hboth
    rw [hs']
    rfl

/-! ### Runs on fixed inputs -/

instance (codeEnd slot : Nat) : Decidable (Loaded codeEnd slot) := by delta Loaded; infer_instance

instance (s : Process) (p a : Nat) : Decidable (InPayload s p a) := by delta InPayload; infer_instance

instance (s : UserState) (o : HeapOp) : Decidable (HeapUse s o) := by
  apply HeapOp.casesOn (motive := fun o => Decidable (HeapUse s o)) o <;> intros <;> (delta HeapUse; infer_instance)

instance (s : Process) (length : Nat) : Decidable (MmapSafe s length) := by delta MmapSafe; infer_instance

instance (s : Process) (addr : Nat) : Decidable (BrkSafe s addr) := by delta BrkSafe; infer_instance

instance (s : Process) (ptr : Nat) : Decidable (FreeSafe s ptr) := by delta FreeSafe; infer_instance

instance (s : UserState) (o : HeapOp) : Decidable (HeapSafe s o) := by
  apply HeapOp.casesOn (motive := fun o => Decidable (HeapSafe s o)) o <;> intros <;> (delta HeapSafe; infer_instance)

/-- A block reused, moved by `realloc` and freed, with a region mapped behind it. -/
def mallocRun : List HeapOp :=
  [.malloc 40 true, .calloc 3 8 true, .store 0x10101a 7, .free 0x101018, .malloc 16 true,
    .realloc 0x101018 200 true, .mmap 5000 true, .brk 0x100000 false, .zalloc 8 true, .free 0]

theorem malloc_sound_mallocRun :
    Meets heapStep HeapUse { proc := newProcess (fun _ => 0) 0x101000 0 } mallocRun ∧
      Meets heapStep HeapSafe { proc := newProcess (fun _ => 0) 0x101000 0 } mallocRun ∧
      Along heapStep (fun _ _ s' => HeapSound s') { proc := newProcess (fun _ => 0) 0x101000 0 } mallocRun := by
  have huse : Meets heapStep HeapUse { proc := newProcess (fun _ => 0) 0x101000 0 } mallocRun := by decide +kernel
  have hsafe : Meets heapStep HeapSafe { proc := newProcess (fun _ => 0) 0x101000 0 } mallocRun := by decide +kernel
  exact ⟨huse, hsafe, (malloc_sound _ (by decide) huse hsafe).1⟩

/-- Two blocks with a mapped page between them, both freed, and a third allocation. -/
def gapRun : List HeapOp :=
  [.malloc 16 true, .mmap 4096 true, .malloc 16 true, .free 0x101018, .free 0x102040, .malloc 48 true]

/-- `coalesce` adds the sizes of list neighbours: the block it makes ends inside the mapped page, and
`malloc` hands it out. -/
theorem free_joins_mapping :
    Meets heapStep HeapUse { proc := newProcess (fun _ => 0) 0x101000 0 } gapRun ∧
      ∃ s, run heapStep { proc := newProcess (fun _ => 0) 0x101000 0 } gapRun = some s ∧
        (0x101018, 48) ∈ s.live ∧ (0x101028, 4096) ∈ s.regions ∧ ¬ HeapSound s := by
  refine ⟨by decide +kernel, ?_⟩
  have hend : (run heapStep { proc := newProcess (fun _ => 0) 0x101000 0 } gapRun).any fun s =>
      decide ((0x101018, 48) ∈ s.live ∧ (0x101028, 4096) ∈ s.regions ∧ InPayload s.proc 0x101018 0x101028) := by
    decide +kernel
  obtain ⟨s, hs, h⟩ := (Option.any_eq_true _ _).mp hend
  obtain ⟨hlive, hregion, hin⟩ := of_decide_eq_true h
  exact ⟨s, hs, hlive, hregion, fun hsound => hsound.regions _ hlive _ hregion _ hin ⟨by decide, by decide⟩⟩

end Blackmount.Libc
