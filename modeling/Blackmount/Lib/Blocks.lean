import Blackmount.Lib.Bytes
import Mathlib.Data.List.Basic
import Mathlib.Data.List.Chain

/-!
# Lib — blocks with headers

A heap of blocks, each with a header in front of its payload, that are linked in a list.  `Layout` says
where the fields are in a header; `Seg` that memory spells a list of blocks between two pointers.

* `Seg.congr`: a list depends on the headers of its blocks alone.
* `Ordered`: the blocks follow each other in memory; `Tiles`: without gaps.
* `mergePass`: the pass over the list that joins neighbours that are both free; it spells `coalesce`
  of what it found (`mergePass_spec`).
* `splitAt`: the rest of a block becomes a block of its own (`Seg.splitAt`).
-/

namespace Blackmount.Lib

@[ext] structure Blk where
  addr : Nat
  size : Nat
  free : Bool
  deriving DecidableEq, Repr

/-- Where a header has its fields: two words of 64 bits, and a flag of 32. -/
structure Layout where
  hdr : Nat
  sizeAt : Nat
  freeAt : Nat
  nextAt : Nat
  size_free : sizeAt + 8 ≤ freeAt
  free_next : freeAt + 4 ≤ nextAt
  next_hdr : nextAt + 8 ≤ hdr

namespace Layout

variable (L : Layout)

def size (m : Bytes) (a : Nat) : Nat := rd64 m (a + L.sizeAt)

def next (m : Bytes) (a : Nat) : Nat := rd64 m (a + L.nextAt)

def free (m : Bytes) (a : Nat) : Bool := rd32 m (a + L.freeAt) != 0

def setSize (m : Bytes) (a v : Nat) : Bytes := wr64 m (a + L.sizeAt) v

def setNext (m : Bytes) (a v : Nat) : Bytes := wr64 m (a + L.nextAt) v

def setFree (m : Bytes) (a : Nat) (v : Bool) : Bytes := wr32 m (a + L.freeAt) (if v then 1 else 0)

/-- The address is in the header of the block at `a`. -/
def InHeader (a j : Nat) : Prop := a ≤ j ∧ j < a + L.hdr

section Fields

variable {L} {m m' : Bytes} {a v j : Nat}

theorem next_lt : L.next m a < 2 ^ 64 := rd64_lt _ _

theorem size_congr (h : ∀ j, L.InHeader a j → m' j = m j) : L.size m' a = L.size m a := by
  have h₁ := L.size_free
  have h₂ := L.free_next
  have h₃ := L.next_hdr
  exact rd64_congr fun j hl hr => h j ⟨by omega, by omega⟩

theorem next_congr (h : ∀ j, L.InHeader a j → m' j = m j) : L.next m' a = L.next m a := by
  have h₃ := L.next_hdr
  exact rd64_congr fun j hl hr => h j ⟨by omega, by omega⟩

theorem free_congr (h : ∀ j, L.InHeader a j → m' j = m j) : L.free m' a = L.free m a := by
  have h₂ := L.free_next
  have h₃ := L.next_hdr
  have : rd32 m' (a + L.freeAt) = rd32 m (a + L.freeAt) :=
    rd32_congr fun j hl hr => h j ⟨by omega, by omega⟩
  simp only [free, this]

theorem setSize_out (hj : ¬ L.InHeader a j) : L.setSize m a v j = m j := by
  have h₁ := L.size_free
  have h₂ := L.free_next
  have h₃ := L.next_hdr
  refine wr64_out _ _ ?_
  simp only [InHeader] at hj
  omega

theorem setNext_out (hj : ¬ L.InHeader a j) : L.setNext m a v j = m j := by
  have h₃ := L.next_hdr
  refine wr64_out _ _ ?_
  simp only [InHeader] at hj
  omega

theorem setFree_out {v : Bool} (hj : ¬ L.InHeader a j) : L.setFree m a v j = m j := by
  have h₂ := L.free_next
  have h₃ := L.next_hdr
  refine wr32_out _ _ ?_
  simp only [InHeader] at hj
  omega

@[simp] theorem size_setSize (hv : v < 2 ^ 64) : L.size (L.setSize m a v) a = v := by
  rw [size, setSize, rd64_wr64]
  exact Nat.mod_eq_of_lt hv

@[simp] theorem next_setNext (hv : v < 2 ^ 64) : L.next (L.setNext m a v) a = v := by
  rw [next, setNext, rd64_wr64]
  exact Nat.mod_eq_of_lt hv

@[simp] theorem free_setFree {v : Bool} : L.free (L.setFree m a v) a = v := by
  rw [free, setFree, rd32_wr32]
  cases v <;> rfl

@[simp] theorem next_setSize : L.next (L.setSize m a v) a = L.next m a := by
  have h₁ := L.size_free
  have h₂ := L.free_next
  exact rd64_wr64_ne _ _ (by omega)

@[simp] theorem free_setSize : L.free (L.setSize m a v) a = L.free m a := by
  have h₁ := L.size_free
  have : rd32 (L.setSize m a v) (a + L.freeAt) = rd32 m (a + L.freeAt) :=
    rd32_congr fun _ _ _ => wr64_out _ _ (by omega)
  simp only [free, this]

@[simp] theorem size_setNext : L.size (L.setNext m a v) a = L.size m a := by
  have h₁ := L.size_free
  have h₂ := L.free_next
  exact rd64_wr64_ne _ _ (by omega)

@[simp] theorem free_setNext : L.free (L.setNext m a v) a = L.free m a := by
  have h₂ := L.free_next
  have : rd32 (L.setNext m a v) (a + L.freeAt) = rd32 m (a + L.freeAt) :=
    rd32_congr fun _ _ _ => wr64_out _ _ (by omega)
  simp only [free, this]

@[simp] theorem size_setFree {v : Bool} : L.size (L.setFree m a v) a = L.size m a := by
  have h₁ := L.size_free
  exact rd64_congr fun _ _ _ => wr32_out _ _ (by omega)

@[simp] theorem next_setFree {v : Bool} : L.next (L.setFree m a v) a = L.next m a := by
  have h₂ := L.free_next
  exact rd64_congr fun _ _ _ => wr32_out _ _ (by omega)

/-- All three fields of a header are written. -/
def setHeader (L : Layout) (m : Bytes) (a size : Nat) (free : Bool) (next : Nat) : Bytes :=
  L.setNext (L.setFree (L.setSize m a size) a free) a next

theorem setHeader_out {s n : Nat} {f : Bool} (hj : ¬ L.InHeader a j) : L.setHeader m a s f n j = m j := by
  rw [setHeader, setNext_out hj, setFree_out hj, setSize_out hj]

theorem setHeader_spec {s n : Nat} {f : Bool} (hs : s < 2 ^ 64) (hn : n < 2 ^ 64) :
    L.size (L.setHeader m a s f n) a = s ∧ L.free (L.setHeader m a s f n) a = f ∧
      L.next (L.setHeader m a s f n) a = n := by
  refine ⟨?_, ?_, next_setNext hn⟩
  · rw [setHeader, size_setNext, size_setFree, size_setSize hs]
  · rw [setHeader, free_setNext, free_setFree]

end Fields

/-! ### Lists of blocks -/

/-- The blocks follow each other in memory. -/
def Ordered (l : List Blk) : Prop := l.Pairwise fun b c => b.addr + L.hdr + b.size ≤ c.addr

/-- The blocks fill the memory between two addresses. -/
def Tiles : Nat → List Blk → Nat → Prop
  | a, [], e => a = e
  | a, b :: l, e => b.addr = a ∧ Tiles (a + L.hdr + b.size) l e

/-- From the pointer `p` on, memory spells the blocks, and the last one points to `q`. -/
def Seg (m : Bytes) : Nat → List Blk → Nat → Prop
  | p, [], q => p = q
  | p, b :: l, q => p = b.addr ∧ p ≠ 0 ∧ L.size m p = b.size ∧ L.free m p = b.free ∧
      Seg m (L.next m p) l q

/-- The list that memory spells from the pointer on, as far as `fuel` goes. -/
def walk (m : Bytes) : Nat → Nat → List Blk
  | 0, _ => []
  | fuel + 1, p => if p = 0 then [] else ⟨p, L.size m p, L.free m p⟩ :: walk m fuel (L.next m p)

section Lists

variable {L} {m m' : Bytes} {l l' : List Blk} {p q a e : Nat} {b : Blk}

theorem Tiles.append : ∀ {l : List Blk} {a : Nat}, L.Tiles a (l ++ l') e ↔
    ∃ c, L.Tiles a l c ∧ L.Tiles c l' e := by
  intro l
  induction l with
  | nil => intro a; simp [Tiles]
  | cons b l ih =>
      intro a
      simp only [List.cons_append, Tiles, ih]
      constructor
      · rintro ⟨hb, c, h₁, h₂⟩
        exact ⟨c, ⟨hb, h₁⟩, h₂⟩
      · rintro ⟨c, ⟨hb, h₁⟩, h₂⟩
        exact ⟨hb, c, h₁, h₂⟩

theorem Tiles.inside : ∀ {l : List Blk} {a : Nat}, L.Tiles a l e →
    a ≤ e ∧ ∀ b ∈ l, a ≤ b.addr ∧ b.addr + L.hdr + b.size ≤ e := by
  intro l
  induction l with
  | nil =>
      intro a h
      exact ⟨h.le, by simp⟩
  | cons c l ih =>
      rintro a ⟨rfl, h⟩
      obtain ⟨hle, hin⟩ := ih h
      refine ⟨by omega, fun b hb => ?_⟩
      rcases List.mem_cons.mp hb with rfl | hb
      · exact ⟨by omega, hle⟩
      · have := hin b hb
        omega

theorem Tiles.ordered : ∀ {l : List Blk} {a : Nat}, L.Tiles a l e → L.Ordered l := by
  intro l
  induction l with
  | nil => intro a _; exact .nil
  | cons c l ih =>
      rintro a ⟨rfl, h⟩
      exact .cons (fun b hb => (h.inside.2 b hb).1) (ih h)

/-- All payloads and headers together make up the whole. -/
theorem Tiles.total : ∀ {l : List Blk} {a : Nat}, L.Tiles a l e →
    a + (l.map fun b => L.hdr + b.size).sum = e := by
  intro l
  induction l with
  | nil => intro a h; simpa [Tiles] using h
  | cons b l ih =>
      rintro a ⟨-, h⟩
      have := ih h
      simp only [List.map_cons, List.sum_cons]
      omega

theorem Tiles.length : ∀ {l : List Blk} {a : Nat}, L.Tiles a l e → a + l.length * L.hdr ≤ e := by
  intro l
  induction l with
  | nil => intro a h; simpa using h.le
  | cons b l ih =>
      rintro a ⟨-, h⟩
      have := ih h
      rw [List.length_cons, Nat.succ_mul]
      omega

theorem Seg.append : ∀ {l : List Blk} {p : Nat}, L.Seg m p (l ++ l') q ↔
    ∃ c, L.Seg m p l c ∧ L.Seg m c l' q := by
  intro l
  induction l with
  | nil => intro p; simp [Seg]
  | cons b l ih =>
      intro p
      simp only [List.cons_append, Seg, ih]
      constructor
      · rintro ⟨h₁, h₂, h₃, h₄, c, h₅, h₆⟩
        exact ⟨c, ⟨h₁, h₂, h₃, h₄, h₅⟩, h₆⟩
      · rintro ⟨c, ⟨h₁, h₂, h₃, h₄, h₅⟩, h₆⟩
        exact ⟨h₁, h₂, h₃, h₄, c, h₅, h₆⟩

/-- A list depends on the headers of its blocks alone. -/
theorem Seg.congr : ∀ {l : List Blk} {p : Nat}, L.Seg m p l q →
    (∀ b ∈ l, ∀ j, L.InHeader b.addr j → m' j = m j) → L.Seg m' p l q := by
  intro l
  induction l with
  | nil => intro p h _; exact h
  | cons b l ih =>
      rintro p ⟨rfl, hne, hs, hf, hrest⟩ h
      have hb := h b (by simp)
      refine ⟨rfl, hne, by rw [size_congr hb, hs], by rw [free_congr hb, hf], ?_⟩
      rw [next_congr hb]
      exact ih hrest fun c hc => h c (by simp [hc])

/-- What the list says about one of its blocks. -/
theorem Seg.mem : ∀ {l : List Blk} {p : Nat}, L.Seg m p l q → ∀ b ∈ l,
    b.addr ≠ 0 ∧ L.size m b.addr = b.size ∧ L.free m b.addr = b.free := by
  intro l
  induction l with
  | nil => intro p _ b hb; simp at hb
  | cons c l ih =>
      rintro p ⟨rfl, hne, hs, hf, hrest⟩ b hb
      rcases List.mem_cons.mp hb with rfl | hb
      · exact ⟨hne, hs, hf⟩
      · exact ih hrest b hb

/-- Memory spells one list. -/
theorem Seg.unique : ∀ {l l' : List Blk} {p : Nat}, L.Seg m p l 0 → L.Seg m p l' 0 → l = l' := by
  intro l
  induction l with
  | nil =>
      intro l' p h h'
      cases l' with
      | nil => rfl
      | cons c l' => exact absurd h h'.2.1
  | cons b l ih =>
      intro l' p h h'
      cases l' with
      | nil => exact absurd h' h.2.1
      | cons c l' =>
          obtain ⟨ha, -, hs, hf, hrest⟩ := h
          obtain ⟨ha', -, hs', hf', hrest'⟩ := h'
          rw [ih hrest hrest', Blk.ext (ha.symm.trans ha') (hs.symm.trans hs') (hf.symm.trans hf')]

theorem Seg.walk : ∀ {l : List Blk} {p fuel : Nat}, L.Seg m p l 0 → l.length ≤ fuel →
    L.walk m fuel p = l := by
  intro l
  induction l with
  | nil =>
      intro p fuel h _
      cases h
      cases fuel <;> simp [Layout.walk]
  | cons b l ih =>
      rintro p fuel ⟨rfl, hne, hs, hf, hrest⟩ hlen
      obtain ⟨n, rfl⟩ : ∃ n, fuel = n + 1 := ⟨fuel - 1, by simp at hlen; omega⟩
      rw [Layout.walk, if_neg hne, ih hrest (by simpa using hlen), hs, hf]

/-- Of two blocks one comes first. -/
theorem Ordered.either {c : Blk} (h : L.Ordered l) (hb : b ∈ l) (hc : c ∈ l) (hne : c ≠ b) :
    c.addr + L.hdr + c.size ≤ b.addr ∨ b.addr + L.hdr + b.size ≤ c.addr := by
  obtain ⟨pre, post, rfl⟩ := List.append_of_mem hb
  have hp := List.pairwise_append.mp h
  rcases List.mem_append.mp hc with hc | hc
  · exact .inl (hp.2.2 c hc b (by simp))
  · rcases List.mem_cons.mp hc with rfl | hc
    · exact absurd rfl hne
    · exact .inr ((List.pairwise_cons.mp hp.2.1).1 c hc)

/-- Headers of different blocks do not overlap. -/
theorem Ordered.apart {c : Blk} (h : L.Ordered l) (hb : b ∈ l) (hc : c ∈ l) :
    c.addr = b.addr ∨ ∀ j, L.InHeader c.addr j → ¬ L.InHeader b.addr j := by
  by_cases e : c = b
  · exact .inl (by rw [e])
  · refine .inr fun j hcj hbj => ?_
    have := h.either hb hc e
    simp only [InHeader] at hcj hbj
    omega

theorem Ordered.header (h : L.Ordered (l ++ b :: l')) :
    ∀ c ∈ l ++ l', ∀ j, L.InHeader c.addr j → ¬ L.InHeader b.addr j := by
  have hp := List.pairwise_append.mp h
  intro c hc j hcj hbj
  simp only [InHeader] at hcj hbj
  rcases List.mem_append.mp hc with hc | hc
  · have := hp.2.2 c hc b (by simp)
    omega
  · have := (List.pairwise_cons.mp hp.2.1).1 c hc
    omega

/-- So many headers fit. -/
theorem Ordered.length : ∀ {l : List Blk} {a : Nat}, L.Ordered l → a ≤ e →
    (∀ b ∈ l, a ≤ b.addr ∧ b.addr + L.hdr + b.size ≤ e) → a + l.length * L.hdr ≤ e := by
  intro l
  induction l with
  | nil => intro a _ hle _; simpa using hle
  | cons b l ih =>
      intro a ho _ hin
      obtain ⟨hb, hl⟩ := List.pairwise_cons.mp ho
      have hfirst := hin b (by simp)
      have := ih hl hfirst.2 fun c hc => ⟨hb c hc, (hin c (by simp [hc])).2⟩
      rw [List.length_cons, Nat.succ_mul]
      omega

/-- One header is written. -/
theorem Seg.replace {b' : Blk} (h : L.Seg m p (l ++ b :: l') q) (ho : L.Ordered (l ++ b :: l'))
    (hout : ∀ j, ¬ L.InHeader b.addr j → m' j = m j) (ha : b'.addr = b.addr)
    (hs : L.size m' b.addr = b'.size) (hf : L.free m' b.addr = b'.free)
    (hn : L.next m' b.addr = L.next m b.addr) : L.Seg m' p (l ++ b' :: l') q := by
  obtain ⟨c, h₁, rfl, hne, -, -, h₂⟩ := Seg.append.mp h
  have hapart := ho.header
  refine Seg.append.mpr ⟨b.addr, h₁.congr fun d hd j hj => hout j ?_, ha.symm, hne, hs, hf, ?_⟩
  · exact hapart d (by simp [hd]) j hj
  · rw [hn]
    exact h₂.congr fun d hd j hj => hout j (hapart d (by simp [hd]) j hj)

end Lists

/-! ### Splitting a block -/

/-- What is behind the first `n` bytes of the payload of `b` becomes a free block. -/
def splitAt (m : Bytes) (b n : Nat) : Bytes :=
  let m := L.setHeader m (b + L.hdr + n) (L.size m b - n - L.hdr) true (L.next m b)
  let m := L.setSize m b n
  L.setNext m b (b + L.hdr + n)

section Split

variable {L} {m : Bytes} {l l' : List Blk} {p n : Nat} {b : Blk}

theorem splitAt_out {a j : Nat} (ha : ¬ L.InHeader a j) (hn : ¬ L.InHeader (a + L.hdr + n) j) :
    L.splitAt m a n j = m j := by
  rw [splitAt, setNext_out ha, setSize_out ha, setHeader_out hn]

/-- The new header lies inside the block, where no header is. -/
theorem Ordered.apart_inside (h : L.Ordered (l ++ b :: l')) (hroom : n + L.hdr ≤ b.size) :
    ∀ c ∈ l ++ l', ∀ j, L.InHeader c.addr j → ¬ L.InHeader (b.addr + L.hdr + n) j := by
  have hp := List.pairwise_append.mp h
  intro c hc j hcj hbj
  simp only [InHeader] at hcj hbj
  rcases List.mem_append.mp hc with hc | hc
  · have := hp.2.2 c hc b (by simp)
    omega
  · have := (List.pairwise_cons.mp hp.2.1).1 c hc
    omega

theorem Seg.splitAt (h : L.Seg m p (l ++ b :: l') 0) (ho : L.Ordered (l ++ b :: l'))
    (hroom : n + L.hdr ≤ b.size) (hlt : b.addr + L.hdr + b.size < 2 ^ 64) :
    L.Seg (L.splitAt m b.addr n) p
      (l ++ ⟨b.addr, n, b.free⟩ :: ⟨b.addr + L.hdr + n, b.size - n - L.hdr, true⟩ :: l') 0 := by
  obtain ⟨c, hpre, rfl, hne, hs, hf, hpost⟩ := Seg.append.mp h
  obtain ⟨m₁, e₁⟩ : ∃ m₁, m₁ = L.setHeader m (b.addr + L.hdr + n) (L.size m b.addr - n - L.hdr) true
    (L.next m b.addr) := ⟨_, rfl⟩
  have hsplit : L.splitAt m b.addr n = L.setNext (L.setSize m₁ b.addr n) b.addr (b.addr + L.hdr + n) := by
    rw [e₁]
    rfl
  have hhdr := L.next_hdr
  have hsize : L.size m b.addr - n - L.hdr < 2 ^ 64 := by
    rw [hs]
    omega
  obtain ⟨hs₁, hf₁, hn₁⟩ := setHeader_spec (m := m) (a := b.addr + L.hdr + n) (f := true) hsize
    (next_lt (L := L) (m := m) (a := b.addr))
  rw [← e₁] at hs₁ hf₁ hn₁
  -- neither of the two headers overlaps with the other, nor with those of the other blocks
  have hcur : ∀ j, L.InHeader b.addr j → m₁ j = m j := fun j hj => by
    rw [e₁, setHeader_out fun hn => ?_]
    simp only [InHeader] at hj hn
    omega
  have hnew : ∀ j, L.InHeader (b.addr + L.hdr + n) j → L.splitAt m b.addr n j = m₁ j := fun j hj => by
    have hb : ¬ L.InHeader b.addr j := fun hb => by
      simp only [InHeader] at hj hb
      omega
    rw [hsplit, setNext_out hb, setSize_out hb]
  have hkeep : ∀ c ∈ l ++ l', ∀ j, L.InHeader c.addr j → L.splitAt m b.addr n j = m j := fun c hc j hj =>
    splitAt_out (ho.header c hc j hj) (ho.apart_inside hroom c hc j hj)
  refine Seg.append.mpr ⟨b.addr, hpre.congr fun c hc => hkeep c (by simp [hc]), rfl, hne, ?_, ?_, ?_⟩
  · rw [hsplit, size_setNext, size_setSize (by omega)]
  · rw [hsplit, free_setNext, free_setSize, free_congr hcur, hf]
  · rw [hsplit, next_setNext (by omega), ← hsplit]
    refine ⟨rfl, by omega, ?_, ?_, ?_⟩
    · rw [size_congr hnew, hs₁, hs]
    · rw [free_congr hnew, hf₁]
    · rw [next_congr hnew, hn₁]
      exact hpost.congr fun c hc => hkeep c (by simp [hc])

end Split

/-! ### Joining free neighbours -/

/-- The list after a pass that joins neighbours that are both free. -/
def coalesce : List Blk → List Blk
  | [] => []
  | [b] => [b]
  | b :: c :: l =>
      if b.free && c.free then coalesce ({ b with size := b.size + L.hdr + c.size } :: l)
      else b :: coalesce (c :: l)
termination_by l => l.length

/-- The block at `b` and the next one are both free. -/
def joins (m : Bytes) (b : Nat) : Bool := L.free m b && L.next m b != 0 && L.free m (L.next m b)

/-- The next block becomes part of the one at `b`. -/
def join (m : Bytes) (b : Nat) : Bytes :=
  let m := L.setSize m b (L.size m b + L.hdr + L.size m (L.next m b))
  L.setNext m b (L.next m (L.next m b))

/-- The next block becomes part of the one at `b` when both are free. -/
def joinNext (m : Bytes) (b : Nat) : Bytes := if L.joins m b then L.join m b else m

/-- The list after that. -/
def joinHead : List Blk → List Blk
  | b :: c :: l => if b.free && c.free then { b with size := b.size + L.hdr + c.size } :: l else b :: c :: l
  | l => l

/-- The pass over the list in memory, from the pointer `b` on. -/
def mergePass : Nat → Bytes → Nat → Option Bytes
  | 0, _, _ => none
  | fuel + 1, m, b =>
      if b = 0 then some m
      else if L.joins m b then mergePass fuel (L.join m b) b
      else mergePass fuel m (L.next m b)

/-- No block and the next one are both free. -/
def NoFreePair (l : List Blk) : Prop := l.IsChain fun b c => ¬ (b.free = true ∧ c.free = true)

section Merge

variable {L} {m : Bytes} {l : List Blk} {p : Nat} {b c : Blk}

theorem Seg.joins_last (h : L.Seg m p [b] 0) : L.joins m p = false := by
  have hnext : L.next m p = 0 := h.2.2.2.2
  simp [joins, hnext]

theorem Seg.joins_cons (h : L.Seg m p (b :: c :: l) 0) : L.joins m p = (b.free && c.free) := by
  obtain ⟨-, -, -, hf, -, hne, -, hcf, -⟩ := h
  have hne : (L.next m p != 0) = true := bne_iff_ne.mpr hne
  rw [joins, hf, hne, hcf, Bool.and_true]

theorem join_out {j : Nat} (hj : ¬ L.InHeader p j) : L.join m p j = m j := by
  rw [join, setNext_out hj, setSize_out hj]

/-- Two neighbours become one. -/
theorem Seg.join (h : L.Seg m p (b :: c :: l) 0) (ho : L.Ordered (b :: c :: l))
    (hlt : b.size + L.hdr + c.size < 2 ^ 64) :
    L.Seg (L.join m p) p ({ b with size := b.size + L.hdr + c.size } :: l) 0 := by
  obtain ⟨rfl, hne, hs, hf, hc, hcne, hcs, hcf, hrest⟩ := h
  have hcout : ∀ d ∈ c :: l, ∀ j, L.InHeader d.addr j → ¬ L.InHeader b.addr j :=
    fun d hd => Ordered.header (l := []) ho d hd
  have hnext : L.next (L.setSize m b.addr (L.size m b.addr + L.hdr + L.size m (L.next m b.addr)))
      (L.next m b.addr) = L.next m (L.next m b.addr) := by
    refine next_congr fun j hj => setSize_out (hcout c (by simp) j ?_)
    rwa [hc] at hj
  refine ⟨rfl, hne, ?_, ?_, ?_⟩
  · rw [Layout.join, size_setNext, hs, hcs, size_setSize hlt]
  · rw [Layout.join, free_setNext, free_setSize, hf]
  · rw [Layout.join, next_setSize, hnext, next_setNext next_lt]
    refine hrest.congr fun d hd j hj => ?_
    have hout := hcout d (by simp [hd]) j hj
    rw [setNext_out hout, setSize_out hout]

/-- The joined block ends where the second one did, or before it. -/
theorem Ordered.join (h : L.Ordered (b :: c :: l)) :
    L.Ordered ({ b with size := b.size + L.hdr + c.size } :: l) := by
  obtain ⟨hb, hcl⟩ := List.pairwise_cons.mp h
  obtain ⟨hc, hl⟩ := List.pairwise_cons.mp hcl
  refine .cons (fun d hd => ?_) hl
  have h₁ := hb c (by simp)
  have h₂ := hc d hd
  simp only
  omega

theorem joinNext_out {j : Nat} (hj : ¬ L.InHeader p j) : L.joinNext m p j = m j := by
  simp only [joinNext]
  split
  · exact join_out hj
  · rfl

theorem Seg.joinNext (h : L.Seg m p l 0) (ho : L.Ordered l) (hlt : ∀ b ∈ l, b.addr + L.hdr + b.size < 2 ^ 64) :
    L.Seg (L.joinNext m p) p (L.joinHead l) 0 := by
  match l with
  | [] => cases h; simp [Layout.joinNext, joins, joinHead, Seg]
  | [b] =>
      simp only [Layout.joinNext, h.joins_last, Bool.false_eq_true, if_false]
      exact h
  | b :: c :: l =>
      simp only [Layout.joinNext, h.joins_cons, joinHead]
      split
      · have hb := List.rel_of_pairwise_cons ho (List.mem_cons_self (a := c))
        have hc := hlt c (by simp)
        exact h.join ho (by omega)
      · exact h

theorem Tiles.joinHead {a e : Nat} (h : L.Tiles a l e) : L.Tiles a (L.joinHead l) e := by
  match l with
  | [] => exact h
  | [_] => exact h
  | b :: c :: l =>
      simp only [Layout.joinHead]
      split
      · obtain ⟨rfl, hc, hl⟩ := h
        refine ⟨rfl, ?_⟩
        rwa [show b.addr + L.hdr + (b.size + L.hdr + c.size) = b.addr + L.hdr + b.size + L.hdr + c.size by omega]
      · exact h

/-- Blocks in use stay. -/
theorem mem_joinHead_of_used {d : Blk} (hd : d ∈ l) (hused : d.free = false) : d ∈ L.joinHead l := by
  match l with
  | [] => exact hd
  | [_] => exact hd
  | b :: c :: l =>
      simp only [joinHead]
      split
      · next hfree =>
          simp only [Bool.and_eq_true] at hfree
          simp only [List.mem_cons] at hd ⊢
          rcases hd with rfl | rfl | hd
          · rw [hused] at hfree
            simp at hfree
          · rw [hused] at hfree
            simp at hfree
          · exact .inr hd
      · exact hd

/-- A block of the new list is one of the old ones, or starts where one did. -/
theorem mem_joinHead {d : Blk} (hd : d ∈ L.joinHead l) :
    d ∈ l ∨ ∃ b ∈ l, ∃ c ∈ l, d = { b with size := b.size + L.hdr + c.size } := by
  match l with
  | [] => exact .inl hd
  | [_] => exact .inl hd
  | b :: c :: l =>
      simp only [joinHead] at hd
      split at hd
      · rcases List.mem_cons.mp hd with rfl | hd
        · exact .inr ⟨b, by simp, c, by simp, rfl⟩
        · exact .inl (by simp [hd])
      · exact .inl hd

/-- A list that starts with a free block, followed by a list without free neighbours. -/
theorem noFreePair_joinHead (hfree : b.free = true) (h : NoFreePair l) :
    NoFreePair (L.joinHead (b :: l)) ∧ ∃ d l', L.joinHead (b :: l) = d :: l' ∧ d.free = true ∧
      ∀ c ∈ l'.head?, c.free = false := by
  match l with
  | [] => exact ⟨List.isChain_singleton _, b, [], rfl, hfree, by simp⟩
  | c :: l =>
      simp only [joinHead, hfree, Bool.true_and]
      cases hc : c.free with
      | true =>
          have hnext : ∀ d ∈ l.head?, d.free = false := by
            intro d hd
            have := (List.isChain_cons.mp h).1 d hd
            simpa [hc] using this
          refine ⟨List.isChain_cons.mpr ⟨fun d hd => by simp [hnext d hd], h.tail⟩, _, l, rfl, rfl, hnext⟩
      | false =>
          refine ⟨List.isChain_cons.mpr ⟨fun d hd => ?_, h⟩, b, c :: l, rfl, hfree, fun d hd => ?_⟩
          · cases hd
            simp [hc]
          · cases hd
            exact hc

/-- **The pass joins the free neighbours of the list it finds**, and writes nothing but headers. -/
theorem mergePass_spec : ∀ {fuel : Nat} {l : List Blk} {m : Bytes} {p : Nat}, L.Seg m p l 0 →
    L.Ordered l → (∀ b ∈ l, b.addr + L.hdr + b.size < 2 ^ 64) → l.length < fuel →
    ∃ m', L.mergePass fuel m p = some m' ∧ L.Seg m' p (L.coalesce l) 0 ∧
      ∀ j, (∀ b ∈ l, ¬ L.InHeader b.addr j) → m' j = m j := by
  intro fuel
  induction fuel with
  | zero => intro l m p _ _ _ hlen; omega
  | succ fuel ih =>
      intro l m p hseg hord hlt hlen
      match l with
      | [] =>
          cases hseg
          exact ⟨m, by simp [mergePass], by simp [coalesce, Seg], fun _ _ => rfl⟩
      | [b] =>
          have hne : p ≠ 0 := hseg.2.1
          have hnext : L.next m p = 0 := hseg.2.2.2.2
          obtain ⟨n, rfl⟩ : ∃ n, fuel = n + 1 := ⟨fuel - 1, by simp at hlen; omega⟩
          refine ⟨m, ?_, by rw [coalesce]; exact hseg, fun _ _ => rfl⟩
          simp [mergePass, hne, hseg.joins_last, hnext]
      | b :: c :: l =>
          have hne : p ≠ 0 := hseg.2.1
          simp only [mergePass, hne, if_false, hseg.joins_cons]
          rw [coalesce]
          simp only [List.length_cons] at hlen
          split
          · have hb := List.rel_of_pairwise_cons hord (List.mem_cons_self (a := c))
            have hc := hlt c (by simp)
            obtain ⟨m', hm', hseg', hout⟩ := ih (hseg.join hord (by omega)) hord.join
              (fun d hd => by
                rcases List.mem_cons.mp hd with rfl | hd
                · simp only; omega
                · exact hlt d (by simp [hd])) (by simp only [List.length_cons]; omega)
            refine ⟨m', hm', hseg', fun j hj => ?_⟩
            have hpb : p = b.addr := hseg.1
            rw [hout j fun d hd => ?_, join_out (by rw [hpb]; exact hj b (by simp))]
            rcases List.mem_cons.mp hd with rfl | hd
            · exact hj b (by simp)
            · exact hj d (by simp [hd])
          · obtain ⟨rfl, -, hs, hf, hrest⟩ := hseg
            obtain ⟨m', hm', hseg', hout⟩ := ih hrest (List.pairwise_cons.mp hord).2
              (fun d hd => hlt d (by simp [hd])) (by simp only [List.length_cons]; omega)
            have hkeep : ∀ j, L.InHeader b.addr j → m' j = m j := fun j hj =>
              hout j fun d hd hdj => Ordered.header (l := []) hord d hd j hdj hj
            refine ⟨m', hm', ⟨rfl, hne, by rw [size_congr hkeep, hs], by rw [free_congr hkeep, hf], ?_⟩,
              fun j hj => hout j fun d hd => hj d (by simp [hd])⟩
            rw [next_congr hkeep]
            exact hseg'

/-- Where no two neighbours are free the pass does nothing. -/
theorem mergePass_noFreePair : ∀ {fuel : Nat} {l : List Blk} {p : Nat}, L.Seg m p l 0 → NoFreePair l →
    l.length < fuel → L.mergePass fuel m p = some m := by
  intro fuel
  induction fuel with
  | zero => intro l p _ _ hlen; omega
  | succ fuel ih =>
      intro l p hseg hpair hlen
      match l with
      | [] =>
          cases hseg
          simp [mergePass]
      | [b] =>
          have hne : p ≠ 0 := hseg.2.1
          simp only [mergePass, hne, if_false, hseg.joins_last, Bool.false_eq_true]
          exact ih hseg.2.2.2.2 (.nil) (by simp only [List.length_cons] at hlen ⊢; omega)
      | b :: c :: l =>
          have hne : p ≠ 0 := hseg.2.1
          obtain ⟨hbc, hrest⟩ := List.isChain_cons_cons.mp hpair
          have hjoin : (b.free && c.free) = false := by simpa using hbc
          simp only [mergePass, hne, if_false, hseg.joins_cons, hjoin, Bool.false_eq_true]
          exact ih hseg.2.2.2.2 hrest (by simp only [List.length_cons] at hlen ⊢; omega)

/-- Free neighbours touch. -/
def Touching (l : List Blk) : Prop :=
  l.IsChain fun b c => b.free = true → c.free = true → b.addr + L.hdr + b.size = c.addr

/-- A block of the joined list starts where one of the old ones did. -/
theorem mem_coalesce {d : Blk} (hd : d ∈ L.coalesce l) : ∃ b ∈ l, d.addr = b.addr := by
  induction l using Layout.coalesce.induct L with
  | case1 => simp [coalesce] at hd
  | case2 b =>
      simp only [coalesce, List.mem_singleton] at hd
      exact ⟨b, by simp, by rw [hd]⟩
  | case3 b c l hfree ih =>
      rw [coalesce, if_pos hfree] at hd
      obtain ⟨e, he, ha⟩ := ih hd
      rcases List.mem_cons.mp he with rfl | he
      · exact ⟨b, by simp, ha⟩
      · exact ⟨e, by simp [he], ha⟩
  | case4 b c l hfree ih =>
      rw [coalesce, if_neg hfree] at hd
      rcases List.mem_cons.mp hd with rfl | hd
      · exact ⟨d, by simp, rfl⟩
      · obtain ⟨e, he, ha⟩ := ih hd
        exact ⟨e, by simp only [List.mem_cons] at he ⊢; tauto, ha⟩

theorem Ordered.coalesce (h : L.Ordered l) : L.Ordered (L.coalesce l) := by
  induction l using Layout.coalesce.induct L with
  | case1 => simp [Layout.coalesce, Ordered]
  | case2 b => simp [Layout.coalesce, Ordered]
  | case3 b c l hfree ih =>
      rw [Layout.coalesce, if_pos hfree]
      exact ih h.join
  | case4 b c l hfree ih =>
      rw [Layout.coalesce, if_neg hfree]
      obtain ⟨hb, hcl⟩ := List.pairwise_cons.mp h
      refine .cons (fun d hd => ?_) (ih hcl)
      obtain ⟨e, he, ha⟩ := mem_coalesce hd
      rw [ha]
      exact hb e he

/-- Blocks in use stay. -/
theorem mem_coalesce_of_used {d : Blk} (hd : d ∈ l) (hused : d.free = false) : d ∈ L.coalesce l := by
  induction l using Layout.coalesce.induct L with
  | case1 => simp at hd
  | case2 b => simpa [coalesce] using hd
  | case3 b c l hfree ih =>
      rw [coalesce, if_pos hfree]
      simp only [Bool.and_eq_true] at hfree
      refine ih ?_
      rcases List.mem_cons.mp hd with rfl | hd
      · simp [hused] at hfree
      rcases List.mem_cons.mp hd with rfl | hd
      · simp [hused] at hfree
      · simp [hd]
  | case4 b c l hfree ih =>
      rw [coalesce, if_neg hfree]
      rcases List.mem_cons.mp hd with rfl | hd
      · simp
      · exact List.mem_cons_of_mem _ (ih hd)

/-- Where free neighbours touch, what holds of all blocks and of two touching blocks joined holds after the
pass. -/
theorem Touching.coalesce {P : Blk → Prop}
    (hjoin : ∀ b c : Blk, P b → P c → b.addr + L.hdr + b.size = c.addr →
      P { b with size := b.size + L.hdr + c.size })
    (ht : L.Touching l) (hl : ∀ b ∈ l, P b) : ∀ d ∈ L.coalesce l, P d := by
  induction l using Layout.coalesce.induct L with
  | case1 => intro d hd; simp [Layout.coalesce] at hd
  | case2 b => intro d hd; exact hl d (by simpa [Layout.coalesce] using hd)
  | case3 b c l hfree ih =>
      rw [Layout.coalesce, if_pos hfree]
      simp only [Bool.and_eq_true] at hfree
      obtain ⟨hbc, hcl⟩ := List.isChain_cons_cons.mp ht
      have htouch := hbc hfree.1 hfree.2
      refine ih (List.isChain_cons.mpr ⟨fun d hd _ hdfree => ?_, hcl.tail⟩) fun d hd => ?_
      · have := (List.isChain_cons.mp hcl).1 d hd hfree.2 hdfree
        simp only
        omega
      · rcases List.mem_cons.mp hd with rfl | hd
        · exact hjoin b c (hl b (by simp)) (hl c (by simp)) htouch
        · exact hl d (by simp [hd])
  | case4 b c l hfree ih =>
      rw [Layout.coalesce, if_neg hfree]
      intro d hd
      rcases List.mem_cons.mp hd with rfl | hd
      · exact hl d (by simp)
      · exact ih ht.tail (fun e he => hl e (by simp only [List.mem_cons] at he ⊢; tauto)) d hd

end Merge

end Layout

end Blackmount.Lib
