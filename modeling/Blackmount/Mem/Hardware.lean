import Blackmount.Mem.Create

/-!
# Mem — the walk of the processor

How an x86-64 processor translates an address with four levels of tables, and when `vmm.c` translates it
in the same way.

* `hwWalk`: the translation, with pages of 1 GiB, 2 MiB and 4 KiB; an entry's address is in its bits 12 to 51.
* `hwTable`: the tables that the walk for an address reads.
* `Plain`: no large page and nothing in bits 52 to 63 on the way.
* `walks_agree`: then `vmm_get_physical` agrees, and `vmm_map` and `vmm_unmap` write to tables only.
* `large_page_read_as_table`: a large page is read, and written to, as if it were a table.
-/

namespace Blackmount.Mem
open Blackmount.Lib

/-! ### The processor -/

/-- The index into a table with `l` levels of tables below it. -/
def hwIndex (l virt : Nat) : Nat := virt / 2 ^ (12 + 9 * l) % 512

/-- The address in an entry, as a page number. -/
def hwFrame (entry : Nat) : Nat := entry % 2 ^ 52 / pageSize

/-- A page of 1 GiB or 2 MiB: bit 7 of an entry of a PDPT or a PD. -/
def hwLarge (l entry : Nat) : Bool := (l == 2 || l == 1) && entry.testBit 7

/-- The walk from the table in page `n` on; `none` is a fault because an entry is not present. -/
def hwWalk (mem : Bytes) : (l n virt : Nat) → Option Nat
  | 0, n, virt =>
      let entry := view mem n (hwIndex 0 virt)
      if entry % 2 = 1 then some (hwFrame entry * pageSize + virt % pageSize) else none
  | l + 1, n, virt =>
      let entry := view mem n (hwIndex (l + 1) virt)
      if entry % 2 = 1 then
        if hwLarge (l + 1) entry then
          some (entry % 2 ^ 52 / 2 ^ (12 + 9 * (l + 1)) * 2 ^ (12 + 9 * (l + 1)) + virt % 2 ^ (12 + 9 * (l + 1)))
        else hwWalk mem l (hwFrame entry) virt
      else none

/-- The table that an entry leads to. -/
def hwNext (l entry : Nat) : Option Nat :=
  if entry % 2 = 1 ∧ hwLarge l entry = false then some (hwFrame entry) else none

/-- The table at a depth of the walk; the PML4 is at depth 0, page tables are at depth 3. -/
def hwTable (mem : Bytes) (n virt : Nat) : Nat → Option Nat
  | 0 => some n
  | d + 1 => (hwTable mem n virt d).bind fun m => hwNext (3 - d) (view mem m (hwIndex (3 - d) virt))

/-- No entry on the walk has a reserved bit: bit 7 of an entry of the PML4, and in a large page's entry the
bits between bit 12 and the address. -/
def hwAccepts (mem : Bytes) (n virt : Nat) : Prop :=
  ∀ d < 4, ∀ m ∈ hwTable mem n virt d, view mem m (hwIndex (3 - d) virt) % 2 = 1 →
    (d = 0 → (view mem m (hwIndex (3 - d) virt)).testBit 7 = false) ∧
    (hwLarge (3 - d) (view mem m (hwIndex (3 - d) virt)) →
      view mem m (hwIndex (3 - d) virt) / 2 ^ 13 % 2 ^ (9 * (3 - d) - 1) = 0)

instance (mem : Bytes) (n virt : Nat) : Decidable (hwAccepts mem n virt) := by
  delta hwAccepts
  infer_instance

/-- An entry that `vmm.c` reads as the processor does. -/
def PlainEntry (l entry : Nat) : Prop := entry % 2 = 1 → hwLarge l entry = false ∧ entry < 2 ^ 52

/-- The entries on the walk are such. -/
def Plain (mem : Bytes) (n virt : Nat) : Prop :=
  ∀ d < 4, ∀ m ∈ hwTable mem n virt d, PlainEntry (3 - d) (view mem m (hwIndex (3 - d) virt))

/-- Those on the way to the page table are. -/
def PlainTables (mem : Bytes) (n virt : Nat) : Prop :=
  ∀ d < 3, ∀ m ∈ hwTable mem n virt d, PlainEntry (3 - d) (view mem m (hwIndex (3 - d) virt))

/-! ### Entries -/

variable {d m l e : Nat}

theorem hwNext_plain (h : PlainEntry l e) : hwNext l e = child e := by
  rw [hwNext, child]
  by_cases hpres : e % 2 = 1
  · obtain ⟨hlarge, hlt⟩ := h hpres
    rw [if_pos ⟨hpres, hlarge⟩, if_pos hpres, hwFrame, Nat.mod_eq_of_lt hlt]
  · rw [if_neg hpres, if_neg fun hp => hpres hp.1]

theorem hwNext_absent (h : ¬ e % 2 = 1) : hwNext l e = none := if_neg fun hp => h hp.1

theorem hwNext_some {l e c : Nat} (h : hwNext l e = some c) : e % 2 = 1 := by
  by_contra hne
  rw [hwNext_absent hne] at h
  cases h

/-- `PAGE_USER` and `PAGE_WRITE` do not matter to the walk. -/
theorem flags_cases (flags : Nat) : flags &&& (pageUser ||| pageWrite) < 8 ∧ (flags &&& (pageUser ||| pageWrite)) % 2 = 0 := by
  refine ⟨Nat.lt_of_le_of_lt Nat.and_le_right (by decide), ?_⟩
  have := Nat.and_mod_two_pow (a := flags) (b := pageUser ||| pageWrite) (n := 1)
  rw [Nat.pow_one] at this
  rw [this, show (pageUser ||| pageWrite) % 2 = 0 from rfl, Nat.and_zero]

theorem hwLarge_or {l e g : Nat} (hg : g < 8) : hwLarge l (e ||| g) = hwLarge l e := by
  rw [hwLarge, hwLarge, Nat.testBit_or, Nat.testBit_lt_two_pow (i := 7) (x := g) (by omega), Bool.or_false]

theorem or_mod_two {e g : Nat} (heven : g % 2 = 0) : (e ||| g) % 2 = e % 2 := by
  have := Nat.or_mod_two_pow (a := e) (b := g) (n := 1)
  rw [Nat.pow_one, heven, Nat.or_zero] at this
  exact this

theorem hwFrame_or {e g : Nat} (hg : g < 8) : hwFrame (e ||| g) = hwFrame e := by
  have hmod : (e ||| g) % 2 ^ 52 = e % 2 ^ 52 ||| g := by
    rw [Nat.or_mod_two_pow, Nat.mod_eq_of_lt (a := g) (by omega)]
  have hshift := Nat.shiftRight_or_distrib (i := 12) (a := e % 2 ^ 52) (b := g)
  simp only [Nat.shiftRight_eq_div_pow] at hshift
  rw [hwFrame, hmod, pageSize, show (4096 : Nat) = 2 ^ 12 from rfl, hshift, Nat.div_eq_of_lt (a := g) (by omega),
    Nat.or_zero, hwFrame, pageSize]

theorem hwNext_or {l e g : Nat} (hg : g < 8) (heven : g % 2 = 0) : hwNext l (e ||| g) = hwNext l e := by
  rw [hwNext, hwLarge_or hg, or_mod_two heven, hwFrame_or hg, hwNext]

theorem PlainEntry.or {l e g : Nat} (h : PlainEntry l e) (hg : g < 8) (heven : g % 2 = 0) : PlainEntry l (e ||| g) := by
  intro hpres
  rw [or_mod_two heven] at hpres
  obtain ⟨hlarge, hlt⟩ := h hpres
  exact ⟨by rw [hwLarge_or hg]; exact hlarge, Nat.or_lt_two_pow hlt (by omega)⟩

/-- The entry for a new table. -/
theorem plain_new {l p : Nat} (hp : p < 2 ^ 40) :
    PlainEntry l (pteCreate (p * pageSize) (pageWrite ||| pageUser ||| pagePresent)) ∧
      hwNext l (pteCreate (p * pageSize) (pageWrite ||| pageUser ||| pagePresent)) = some p := by
  have he : pteCreate (p * pageSize) (pageWrite ||| pageUser ||| pagePresent) = p * pageSize + 7 := by
    rw [pteCreate_eq (by decide), Nat.mul_div_cancel _ (by decide)]
    rfl
  have hbit : (p * pageSize + 7).testBit 7 = false := by
    rw [Nat.testBit_eq_decide_div_mod_eq, pageSize]
    exact decide_eq_false (by omega)
  have hplain : PlainEntry l (p * pageSize + 7) := by
    intro _
    rw [hwLarge, hbit, Bool.and_false]
    refine ⟨rfl, ?_⟩
    simp only [pageSize]
    omega
  rw [he]
  refine ⟨hplain, ?_⟩
  rw [hwNext_plain hplain, child, if_pos (by simp only [pageSize]; omega)]
  congr 1
  simp only [pageSize]
  omega

/-! ### Walks that agree -/

section Walk

variable {mem mem' : Bytes} {n virt : Nat}

theorem hwTable_succ (h : hwTable mem n virt d = some m) :
    hwTable mem n virt (d + 1) = hwNext (3 - d) (view mem m (hwIndex (3 - d) virt)) := by
  rw [hwTable, h, Option.bind_some]

/-- A table deep in the walk has the tables above it. -/
theorem hwTable_above {d k : Nat} (h : (hwTable mem n virt k).isSome) (hd : d ≤ k) : (hwTable mem n virt d).isSome := by
  induction k, hd using Nat.le_induction with
  | base => exact h
  | succ k _ ih =>
      refine ih ?_
      rw [hwTable] at h
      cases hm : hwTable mem n virt k with
      | none =>
          rw [hm] at h
          cases h
      | some m => rfl

/-- The walk depends on the entries it reads. -/
theorem hwTable_congr (h : ∀ d < 3, ∀ m, hwTable mem n virt d = some m →
      hwNext (3 - d) (view mem' m (hwIndex (3 - d) virt)) = hwNext (3 - d) (view mem m (hwIndex (3 - d) virt)))
    (hd : d ≤ 3) : hwTable mem' n virt d = hwTable mem n virt d := by
  induction d with
  | zero => rfl
  | succ d ih =>
      rw [hwTable, hwTable, ih (by omega)]
      cases hm : hwTable mem n virt d with
      | none => rfl
      | some m => exact h d (by omega) m hm

theorem Plain.tables (h : Plain mem n virt) : PlainTables mem n virt := fun d hd => h d (by omega)

/-- The tables of the walk are those `vmm.c` finds. -/
theorem hwTable_plain (s : Pmm) (h : PlainTables s.mem n virt) (hd : d ≤ 3) :
    hwTable s.mem n virt d = walkTo s n ((tablePath virt).take d) := by
  have hstep : ∀ d m, d < 3 → hwTable s.mem n virt d = some m →
      hwTable s.mem n virt (d + 1) = child (view s.mem m (hwIndex (3 - d) virt)) := by
    intro d m hd hm
    rw [hwTable_succ hm, hwNext_plain (h d hd m hm)]
  induction d with
  | zero => rfl
  | succ d ih =>
      have htake : (tablePath virt).take (d + 1) = (tablePath virt).take d ++ [hwIndex (3 - d) virt] := by
        rcases d with _ | _ | _ | d
        · rfl
        · rfl
        · rfl
        · omega
      rw [htake, walkTo, Radix.walk_concat,
        show Radix.walk child (view s.mem) n ((tablePath virt).take d) = hwTable s.mem n virt d from (ih (by omega)).symm]
      cases hm : hwTable s.mem n virt d with
      | none => rw [hwTable, hm]; rfl
      | some m => exact hstep d m (by omega) hm

/-- One level of the walk. -/
theorem hwWalk_plain (h : PlainEntry (l + 1) (view mem n (hwIndex (l + 1) virt))) :
    hwWalk mem (l + 1) n virt = (child (view mem n (hwIndex (l + 1) virt))).bind fun c => hwWalk mem l c virt := by
  rw [hwWalk, ← hwNext_plain h, hwNext]
  by_cases hpres : view mem n (hwIndex (l + 1) virt) % 2 = 1
  · obtain ⟨hlarge, -⟩ := h hpres
    rw [if_pos hpres, if_neg (by rw [hlarge]; decide), if_pos ⟨hpres, hlarge⟩, Option.bind_some]
  · rw [if_neg hpres, if_neg fun hp => hpres hp.1, Option.bind_none]

theorem hwWalk_last (h : PlainEntry 0 (view mem n (hwIndex 0 virt))) :
    hwWalk mem 0 n virt = (child (view mem n (hwIndex 0 virt))).map fun f => f * pageSize + virt % pageSize := by
  rw [hwWalk, child]
  by_cases hpres : view mem n (hwIndex 0 virt) % 2 = 1
  · rw [if_pos hpres, if_pos hpres, hwFrame, Nat.mod_eq_of_lt (h hpres).2, Option.map_some]
  · rw [if_neg hpres, if_neg hpres, Option.map_none]

/-- The indices that are left with `l` levels of tables to go. -/
def hwPath (virt : Nat) : Nat → List Nat
  | 0 => [hwIndex 0 virt]
  | l + 1 => hwIndex (l + 1) virt :: hwPath virt l

theorem hwWalk_from (s : Pmm) (h : Plain s.mem n virt) (hl : l ≤ 3) (hm : hwTable s.mem n virt (3 - l) = some m) :
    hwWalk s.mem l m virt = (walkTo s m (hwPath virt l)).map fun f => f * pageSize + virt % pageSize := by
  induction l generalizing m with
  | zero =>
      rw [hwWalk_last (h 3 (by omega) m hm), walkTo, hwPath, Radix.walk]
      cases child (view s.mem m (hwIndex 0 virt)) with
      | none => rfl
      | some f => rfl
  | succ l ih =>
      have hp := h (3 - (l + 1)) (by omega) m hm
      have hlevel : 3 - (3 - (l + 1)) = l + 1 := by omega
      rw [hlevel] at hp
      have hnext := hwTable_succ hm
      rw [hlevel, hwNext_plain hp, show 3 - (l + 1) + 1 = 3 - l by omega] at hnext
      rw [hwWalk_plain hp, walkTo, hwPath, Radix.walk]
      cases hc : child (view s.mem m (hwIndex (l + 1) virt)) with
      | none => rfl
      | some c => exact ih (by omega) (hnext.trans hc)

/-- **The translation is what the tables of `vmm.c` say.** -/
theorem hwWalk_eq (s : Pmm) (h : Plain s.mem n virt) :
    hwWalk s.mem 3 n virt =
      (walkTo s n (tablePath virt ++ [ptIndex virt])).map fun f => f * pageSize + virt % pageSize :=
  hwWalk_from s h (Nat.le_refl 3) rfl

end Walk

/-! ### What is written -/

/-- Of what is not the allocator's bitmap, only tables were written to: those the walk read before, and those
it reads now. -/
def OnlyTables (n virt : Nat) (s s' : Pmm) : Prop :=
  ∀ a, s'.mem a ≠ s.mem a → s.OffBitmap a →
    ∃ d ≤ 3, ∃ m, (hwTable s.mem n virt d = some m ∨ hwTable s'.mem n virt d = some m) ∧ InPage m a

section Writes

variable {memmap : List MemmapEntry} {n virt : Nat} {s t : Pmm}

/-- A write to one entry of a page. -/
theorem wrote_out {m i e a : Nat} (hi : i < 512) (ha : ¬ InPage m a) : (wrote t m i e).mem a = t.mem a := by
  refine wr64_out _ _ ?_
  by_contra hin
  refine ha ⟨by omega, ?_⟩
  simp only [pageSize]
  simp only [pageSize] at hin
  omega

/-- Flags were added to one entry. -/
theorem view_flags (t : Pmm) (m : Nat) {i g : Nat} (hi : i < 512) (hg : g < 8) (m' i' : Nat) :
    view (wrote t m i (view t.mem m i ||| g)).mem m' i' = view t.mem m' i' ∨
      view (wrote t m i (view t.mem m i ||| g)).mem m' i' = view t.mem m' i' ||| g := by
  rw [view_wrote t m hi (or_lt (view_lt t.mem m i) (Nat.lt_trans hg (by decide)))]
  by_cases hself : m' = m ∧ i' = i
  · obtain ⟨rfl, rfl⟩ := hself
    exact .inr Radix.set_self
  · exact .inl (Radix.set_of_ne hself)

/-- Every entry leads where it led. -/
theorem hwNext_flags (t : Pmm) (m : Nat) {i g : Nat} (hi : i < 512) (hg : g < 8) (heven : g % 2 = 0) (l m' i' : Nat) :
    hwNext l (view (wrote t m i (view t.mem m i ||| g)).mem m' i') = hwNext l (view t.mem m' i') := by
  rcases view_flags t m hi hg m' i' with e | e
  · rw [e]
  · rw [e, hwNext_or hg heven]

variable (memmap n virt s) in
/-- The walk has come to table `m` at depth `d`, and memory is `t`. -/
structure Walked (d m : Nat) (t : Pmm) : Prop where
  same : Pmm.Same s t
  sound : t.Sound memmap
  free : t.freePages ⊆ s.freePages
  here : hwTable t.mem n virt d = some m
  plain : PlainTables t.mem n virt
  used : ∀ d ≤ 3, ∀ m, hwTable t.mem n virt d = some m → m ∉ t.freePages ∧ t.Outside m
  kept : ∀ a, t.mem a ≠ s.mem a → s.OffBitmap a → ∃ d ≤ 3, ∃ m, hwTable t.mem n virt d = some m ∧ InPage m a
  /-- No table was made so far, or this one was: it is empty, and on the walk only once. -/
  fresh : (∀ d ≤ 3, hwTable t.mem n virt d = hwTable s.mem n virt d) ∨
    (∀ i, view t.mem m i = 0) ∧ ∀ d' ≤ 3, hwTable t.mem n virt d' = some m → d' = d

theorem Walked.start (hsound : s.Sound memmap) (hplain : PlainTables s.mem n virt)
    (hused : ∀ d ≤ 3, ∀ m, hwTable s.mem n virt d = some m → m ∉ s.freePages ∧ s.Outside m) :
    Walked memmap n virt s 0 n s :=
  ⟨.refl s, hsound, Finset.Subset.refl _, rfl, hplain, hused,
    fun _ ha => absurd rfl ha, .inl fun _ _ => rfl⟩

theorem hwIndex_lt (l virt : Nat) : hwIndex l virt < 512 := Nat.mod_lt _ (by decide)

/-- A step down through an entry that is present. -/
theorem Walked.down (h : Walked memmap n virt s d m t) (hd : d < 3)
    (hpres : view t.mem m (hwIndex (3 - d) virt) % 2 = 1) (flags : Nat) :
    Walked memmap n virt s (d + 1) (view t.mem m (hwIndex (3 - d) virt) / pageSize)
      (wrote t m (hwIndex (3 - d) virt) (view t.mem m (hwIndex (3 - d) virt) ||| flags &&& (pageUser ||| pageWrite))) := by
  have hi := hwIndex_lt (3 - d) virt
  generalize hidx : hwIndex (3 - d) virt = i at hpres hi
  obtain ⟨hg, heven⟩ := flags_cases flags
  generalize flags &&& (pageUser ||| pageWrite) = g at hg heven
  have hcases := view_flags t m hi hg
  have hnext := hwNext_flags t m hi hg heven
  have htable : ∀ d' ≤ 3, hwTable (wrote t m i (view t.mem m i ||| g)).mem n virt d' = hwTable t.mem n virt d' :=
    fun d' hd' => hwTable_congr (fun _ _ _ _ => hnext _ _ _) hd'
  obtain ⟨hsound, hfree⟩ := h.sound.write (m := (wrote t m i (view t.mem m i ||| g)).mem) fun a ha =>
    wrote_out hi fun hin => ha ((h.used d (by omega) m h.here).2.off hin)
  have hfree : (wrote t m i (view t.mem m i ||| g)).freePages = t.freePages := hfree
  refine ⟨h.same.trans ⟨rfl, rfl, rfl, rfl⟩, hsound, by rw [hfree]; exact h.free, ?_, fun d' hd' m' hm' => ?_,
    fun d' hd' m' hm' => ?_, fun a ha hoff => ?_, ?_⟩
  · have hp := h.plain d hd m h.here
    rw [hidx] at hp
    rw [htable (d + 1) (by omega), hwTable_succ h.here, hidx, hwNext_plain hp, child, if_pos hpres]
  · rw [htable d' (by omega)] at hm'
    rcases hcases m' (hwIndex (3 - d') virt) with e | e
    · rw [e]
      exact h.plain d' hd' m' hm'
    · rw [e]
      exact (h.plain d' hd' m' hm').or hg heven
  · rw [htable d' hd'] at hm'
    rw [hfree]
    exact h.used d' hd' m' hm'
  · by_cases hin : InPage m a
    · exact ⟨d, by omega, m, (htable d (by omega)).trans h.here, hin⟩
    · rw [wrote_out hi hin] at ha
      obtain ⟨d', hd', m', hm', hin'⟩ := h.kept a ha hoff
      exact ⟨d', hd', m', (htable d' hd').trans hm', hin'⟩
  · rcases h.fresh with hold | ⟨hzero, -⟩
    · exact .inl fun d' hd' => (htable d' hd').trans (hold d' hd')
    · rw [hzero i] at hpres
      omega

/-- A step down to a new table. -/
theorem Walked.create {d m p : Nat} {t₁ : Pmm} (h : Walked memmap n virt s d m t) (hd : d < 3)
    (habs : ¬ view t.mem m (hwIndex (3 - d) virt) % 2 = 1) (htotal : s.totalPages ≤ 2 ^ 40) (hplaced : s.bitmap ≠ 0)
    (hp : p ∈ t.freePages) (hsound : t₁.Sound memmap) (hsame : Pmm.Same t t₁) (hset : t₁.freePages = t.freePages.erase p)
    (hzero : ∀ a, InPage p a → t₁.mem a = 0) (hmem : ∀ a, ¬ InPage p a → t.OffBitmap a → t₁.mem a = t.mem a) :
    Walked memmap n virt s (d + 1) p
      (wrote t₁ m (hwIndex (3 - d) virt) (pteCreate (p * pageSize) (pageWrite ||| pageUser ||| pagePresent))) := by
  have hi := hwIndex_lt (3 - d) virt
  have hlt : p < 2 ^ 40 := by
    have hp' := ((Pmm.mem_freePages (by rw [h.same.bitmap]; exact hplaced)).mp hp).1
    rw [h.same.totalPages] at hp'
    omega
  have hplain := fun l => (plain_new (l := l) hlt).1
  have hnew := (plain_new (l := 3 - d) hlt).2
  have hsmall : pteCreate (p * pageSize) (pageWrite ||| pageUser ||| pagePresent) < 2 ^ 64 :=
    Nat.lt_trans (hplain 0 (hwNext_some hnew)).2 (by decide)
  generalize pteCreate (p * pageSize) (pageWrite ||| pageUser ||| pagePresent) = e at hplain hnew hsmall
  generalize hidx : hwIndex (3 - d) virt = i at habs hi
  have hm := h.used d (by omega) m h.here
  have hmp : m ≠ p := fun e => hm.1 (e ▸ hp)
  have hview := view_wrote t₁ m hi hsmall
  -- the tables of the walk so far keep their entries, but for the one written
  have hentry : ∀ d' ≤ 3, ∀ m', hwTable t.mem n virt d' = some m' → ∀ i', ¬ (m' = m ∧ i' = i) →
      view (wrote t₁ m i e).mem m' i' = view t.mem m' i' := by
    intro d' hd' m' hm' i' hne
    obtain ⟨hnot, hout⟩ := h.used d' hd' m' hm'
    rw [hview, Radix.set_of_ne hne]
    refine view_congr (fun a ha => hmem a (fun hpa => hnot ?_) (hout.off ha)) i'
    have : m' = p := by
      simp only [InPage, pageSize] at ha hpa
      omega
    rw [this]
    exact hp
  have hmono : ∀ d' ≤ 3, ∀ m', hwTable t.mem n virt d' = some m' → hwTable (wrote t₁ m i e).mem n virt d' = some m' := by
    intro d'
    induction d' with
    | zero => exact fun _ _ hm' => hm'
    | succ d' ih =>
        intro hd' m' hm'
        obtain ⟨m₀, hm₀⟩ := Option.isSome_iff_exists.mp (hwTable_above (d := d') (k := d' + 1) (by rw [hm']; rfl) (by omega))
        have hnext := (hwTable_succ hm₀).symm.trans hm'
        rw [hwTable_succ (ih (by omega) m₀ hm₀), hentry d' (by omega) m₀ hm₀]
        · exact hnext
        · rintro ⟨rfl, hi'⟩
          rw [hi'] at hnext
          exact habs (hwNext_some hnext)
  have hpentry : ∀ j, view (wrote t₁ m i e).mem p j = 0 := by
    intro j
    rw [hview, Radix.set_of_ne fun hself => hmp hself.1.symm]
    exact view_zero hzero j
  have hthere : hwTable (wrote t₁ m i e).mem n virt (d + 1) = some p := by
    rw [hwTable_succ (hmono d (by omega) m h.here), hidx, hview, Radix.set_self]
    exact hnew
  -- the walk ends at the new table
  have hcases : ∀ d' ≤ 3, ∀ m', hwTable (wrote t₁ m i e).mem n virt d' = some m' →
      hwTable t.mem n virt d' = some m' ∧ d' ≤ d ∨ m' = p ∧ d' = d + 1 := by
    intro d' hd' m' hm'
    rcases Nat.lt_trichotomy d' (d + 1) with hlt' | rfl | hgt
    · obtain ⟨m₀, hm₀⟩ := Option.isSome_iff_exists.mp (hwTable_above (d := d') (k := d) (by rw [h.here]; rfl) (by omega))
      have := (hmono d' hd' m₀ hm₀).symm.trans hm'
      cases this
      exact .inl ⟨hm₀, by omega⟩
    · have := hthere.symm.trans hm'
      cases this
      exact .inr ⟨rfl, rfl⟩
    · have hnext : (hwTable (wrote t₁ m i e).mem n virt (d + 2)).isSome :=
        hwTable_above (k := d') (by rw [hm']; rfl) (by omega)
      rw [hwTable_succ hthere, hpentry] at hnext
      cases hnext
  have hsome : t₁.Outside m := hsame.outside.mpr hm.2
  obtain ⟨hsound', hfree⟩ := hsound.write (m := (wrote t₁ m i e).mem) fun a ha =>
    wrote_out hi fun hin => ha (hsome.off hin)
  have hfree : (wrote t₁ m i e).freePages = t.freePages.erase p := hfree.trans hset
  have hsame' : Pmm.Same t (wrote t₁ m i e) := hsame.trans ⟨rfl, rfl, rfl, rfl⟩
  refine ⟨h.same.trans hsame', hsound', by rw [hfree]; exact (Finset.erase_subset _ _).trans h.free, hthere,
    fun d' hd' m' hm' => ?_, fun d' hd' m' hm' => ?_, fun a ha hoff => ?_, .inr ⟨hpentry, fun d' hd' hm' => ?_⟩⟩
  · rcases hcases d' (by omega) m' hm' with ⟨hm', -⟩ | ⟨rfl, -⟩
    · by_cases hself : m' = m ∧ hwIndex (3 - d') virt = i
      · obtain ⟨rfl, hi'⟩ := hself
        rw [hi', hview, Radix.set_self]
        exact hplain _
      · rw [hentry d' (by omega) m' hm' _ hself]
        exact h.plain d' hd' m' hm'
    · rw [hpentry]
      exact fun h0 => absurd h0 (by decide)
  · rw [hfree]
    rcases hcases d' hd' m' hm' with ⟨hm', -⟩ | ⟨rfl, -⟩
    · obtain ⟨hnot, hout⟩ := h.used d' hd' m' hm'
      exact ⟨fun hin => hnot (Finset.mem_of_mem_erase hin), hsame'.outside.mpr hout⟩
    · exact ⟨Finset.notMem_erase _ _, hsame'.outside.mpr (h.sound.free m' hp).2⟩
  · by_cases hin : InPage m a
    · exact ⟨d, by omega, m, hmono d (by omega) m h.here, hin⟩
    · by_cases hin' : InPage p a
      · exact ⟨d + 1, by omega, p, hthere, hin'⟩
      · rw [wrote_out hi hin, hmem a hin' ?_] at ha
        · obtain ⟨d', hd', m', hm', hin'⟩ := h.kept a ha hoff
          exact ⟨d', hd', m', hmono d' hd' m' hm', hin'⟩
        · simp only [Pmm.OffBitmap, h.same.bitmapPhys, h.same.bitmapSize]
          exact hoff
  · rcases hcases d' hd' p hm' with ⟨hm', -⟩ | ⟨-, e⟩
    · exact absurd hp (h.used d' hd' p hm').1
    · exact e

/-- **One level of the walk of `vmm_map`.** -/
theorem Walked.next (hmap : GoodMap memmap) (h : Walked memmap n virt s d m t) (hd : d < 3)
    (htotal : s.totalPages ≤ 2 ^ 40) (hplaced : s.bitmap ≠ 0) :
    vmmGetNextLevel (m * pageSize) (hwIndex (3 - d) virt) true (pageWrite ||| pageUser) t = some (none, t) ∨
      ∃ c t', vmmGetNextLevel (m * pageSize) (hwIndex (3 - d) virt) true (pageWrite ||| pageUser) t =
          some (some (c * pageSize), t') ∧ Walked memmap n virt s (d + 1) c t' := by
  have hi := hwIndex_lt (3 - d) virt
  by_cases hpres : view t.mem m (hwIndex (3 - d) virt) % 2 = 1
  · exact .inr ⟨_, _, nextLevel_present hi hpres, h.down hd hpres _⟩
  · have hb : t.bitmap ≠ 0 := by
      rw [h.same.bitmap]
      exact hplaced
    rcases h.sound.alloc hmap hb with ⟨hr, -⟩ | ⟨p, t₁, hr, hp, hp0, haddr, hsound, hsame, hset, hzero, hmem⟩
    · exact .inl (nextLevel_full hi hpres hr)
    · have hphys : pageAddr p ≠ 0 := by
        intro e
        rw [e] at haddr
        simp only [pageSize, UInt64.toNat_zero] at haddr
        omega
      refine .inr ⟨p, _, ?_, h.create hd hpres htotal hplaced hp hsound hsame hset hzero hmem⟩
      rw [nextLevel_new hi hpres hr hphys, haddr, clear_clear hzero]

theorem Walked.only (h : Walked memmap n virt s d m t) : OnlyTables n virt s t := by
  intro a ha hoff
  obtain ⟨d', hd', m', hm', hin⟩ := h.kept a ha hoff
  exact ⟨d', hd', m', .inr hm', hin⟩

/-- The write to the page table, at the end of the walk. -/
theorem Walked.write {pt : Nat} (h : Walked memmap n virt s 3 pt t) {i : Nat} (hi : i < 512) (e : Nat) :
    OnlyTables n virt s (wrote t pt i e) := by
  intro a ha hoff
  -- an old table is one the walk read before; where tables were made, the write leaves the walk alone
  have hsome : ∀ d ≤ 3, ∀ m, hwTable t.mem n virt d = some m →
      hwTable s.mem n virt d = some m ∨ hwTable (wrote t pt i e).mem n virt d = some m := by
    intro d hd m hm
    rcases h.fresh with hold | ⟨-, honce⟩
    · exact .inl ((hold d hd).symm.trans hm)
    · right
      refine (hwTable_congr (fun d' hd' m' hm' => ?_) hd).trans hm
      rw [wrote, view_wr64 _ _ _ hi, Radix.set_of_ne]
      rintro ⟨rfl, -⟩
      have := honce d' (by omega) hm'
      omega
  by_cases hin : InPage pt a
  · exact ⟨3, Nat.le_refl 3, pt, hsome 3 (Nat.le_refl 3) pt h.here, hin⟩
  · rw [wrote_out hi hin] at ha
    obtain ⟨d, hd, m, hm, hin⟩ := h.kept a ha hoff
    exact ⟨d, hd, m, hsome d hd m hm, hin⟩

variable {space : AddressSpace}

/-- **`vmm_map`** writes to tables only. -/
theorem vmmMap_onlyTables (hmap : GoodMap memmap) (h : Walked memmap n virt s 0 n s) (htotal : s.totalPages ≤ 2 ^ 40)
    (hplaced : s.bitmap ≠ 0) (hroot : space.pml4 = n * pageSize) (phys flags : Nat) :
    ∃ r s', vmmMap space virt phys flags s = some (r, s') ∧ OnlyTables n virt s s' := by
  obtain ⟨h4, h3, h2, h1⟩ := index_pageOf virt
  have hdown : ∀ d < 3, ∀ i, i = hwIndex (3 - d) virt →
      StepsDown (Walked memmap n virt s) (fun _ => True) true (pageWrite ||| pageUser) d i := by
    rintro d hd _ rfl m t h
    rcases h.next hmap hd htotal hplaced with hr | hr
    · exact .inl ⟨hr, trivial⟩
    · exact .inr hr
  rw [vmmMap, h1]
  rcases withPageTable_run (hdown 0 (by omega) _ h4) (hdown 1 (by omega) _ h3) (hdown 2 (by omega) _ h2) h hroot false _ with ⟨d, m, s', -, hr, hw, -⟩ | ⟨pt, s', hr, hw⟩
  · exact ⟨false, s', hr, hw.only⟩
  · exact ⟨true, _, hr, hw.write (hwIndex_lt 0 virt) _⟩

/-- **`vmm_unmap`** writes to tables only. -/
theorem vmmUnmap_onlyTables (hplain : PlainTables s.mem n virt) (hroot : space.pml4 = n * pageSize) :
    ∃ s', vmmUnmap space virt s = some ((), s') ∧ OnlyTables n virt s s' := by
  rw [vmmUnmap, withPageTable_find hroot, tablePath_pageOf]
  have htable := hwTable_plain s hplain (Nat.le_refl 3)
  cases hw : walkTo s n (tablePath virt) with
  | none => exact ⟨s, rfl, fun a ha => absurd rfl ha⟩
  | some pt =>
      refine ⟨_, rfl, fun a ha _ => ⟨3, Nat.le_refl 3, pt, .inl (htable.trans hw), ?_⟩⟩
      by_contra hin
      exact ha (wrote_out (e := 0) (index_lt (pageOf virt)).2.2.2 hin)

end Writes

/-! ### The two walks -/

/-- What the processor finds for an address, `vmm_get_physical` returns, and 0 when it finds nothing; and
`vmm_map` and `vmm_unmap` of the page write to page tables only. -/
structure WalksAgree (space : AddressSpace) (n virt : Nat) (s : Pmm) : Prop where
  physical : ∃ r, vmmGetPhysical space virt s = some (r, s) ∧ (∀ p, hwWalk s.mem 3 n virt = some p → r = p) ∧
    (r = 0 ↔ hwWalk s.mem 3 n virt = none)
  map : ∀ phys flags, ∃ r s', vmmMap space virt phys flags s = some (r, s') ∧ OnlyTables n virt s s'
  unmap : ∃ s', vmmUnmap space virt s = some ((), s') ∧ OnlyTables n virt s s'

/-- **The walk of `vmm.c` is that of the processor** for an address whose walk meets no large page and nothing in
bits 52 to 63 of an entry, and does not end at physical address 0.  The tables are not free, and not in the
allocator's bitmap; there is no physical memory from 2^52 on. -/
theorem walks_agree {memmap : List MemmapEntry} {space : AddressSpace} {n virt : Nat} {s : Pmm} (hmap : GoodMap memmap)
    (hsound : s.Sound memmap) (hplaced : s.bitmap ≠ 0) (htotal : s.totalPages ≤ 2 ^ 40)
    (hroot : space.pml4 = n * pageSize)
    (hused : ∀ d ≤ 3, ∀ m, hwTable s.mem n virt d = some m → m ∉ s.freePages ∧ s.Outside m)
    (hplain : Plain s.mem n virt) (hzero : hwWalk s.mem 3 n virt ≠ some 0) : WalksAgree space n virt s := by
  have hwalk := hwWalk_eq s hplain
  refine ⟨⟨_, vmmGetPhysical_spec hroot, fun p hp => ?_, ?_⟩,
    vmmMap_onlyTables hmap (.start hsound hplain.tables hused) htotal hplaced hroot,
    vmmUnmap_onlyTables hplain.tables hroot⟩
  · rw [hwalk] at hp
    cases hw : walkTo s n (tablePath virt ++ [ptIndex virt]) with
    | none =>
        rw [hw] at hp
        cases hp
    | some f =>
        rw [hw] at hp
        cases hp
        rfl
  · cases hw : walkTo s n (tablePath virt ++ [ptIndex virt]) with
    | none =>
        rw [hwalk, hw]
        exact ⟨fun _ => rfl, fun _ => rfl⟩
    | some f =>
        rw [hwalk, hw, Option.map_some] at hzero ⊢
        refine ⟨fun h0 => absurd (congrArg some h0) hzero, fun h0 => by cases h0⟩

/-- Sixteen usable pages from 64 KiB on. -/
def adoptedMap : List MemmapEntry := [⟨0x10000, 0x10000, .usable, by decide⟩]

theorem adoptedMap_good : GoodMap adoptedMap := by
  refine ⟨by decide, List.pairwise_singleton _ _, ?_⟩
  rintro ⟨e, he, -, hlow, -⟩
  rw [List.mem_singleton.mp he] at hlow
  exact absurd hlow (by decide)

/-- Tables of a boot loader in pages 1 to 4: the first page is mapped without the right to execute, the second
as usual, and the second 2 MiB are one large page. -/
def adoptedTables : Bytes :=
  wr64 (wr64 (wr64 (wr64 (wr64 (wr64 (fun _ => 0) 0x1000 0x2003) 0x2000 0x3003) 0x3000 0x4003) 0x3008 0x200083)
    0x4000 (0x5003 + pageNx)) 0x4008 0x6003

/-- The allocator beside them. -/
def adoptedPmm : Pmm := pmmInit adoptedMap 0xFFFF800000000000 adoptedTables

def adoptedSpace : AddressSpace := ⟨0, 0x1000⟩

theorem adoptedPmm_used {virt : Nat} (h : virt ∈ [0x0, 0x1000, 0x200000]) :
    ∀ d ≤ 3, ∀ m, hwTable adoptedPmm.mem 1 virt d = some m → m ∉ adoptedPmm.freePages ∧ adoptedPmm.Outside m := by
  have hdec : ∀ virt ∈ [0x0, 0x1000, 0x200000], ∀ d < 4, ∀ m ∈ hwTable adoptedPmm.mem 1 virt d,
      m ∉ adoptedPmm.freePages ∧ (m * pageSize + pageSize ≤ adoptedPmm.bitmapPhys ∨
        adoptedPmm.bitmapPhys + adoptedPmm.bitmapSize ≤ m * pageSize) := by decide +kernel
  exact fun d hd m hm => hdec virt h d (by omega) m hm

theorem walks_agree_adopted : hwWalk adoptedPmm.mem 3 1 0x1234 = some 0x6234 ∧ WalksAgree adoptedSpace 1 0x1000 adoptedPmm := by
  have hb : adoptedPmm.bitmap ≠ 0 := by decide +kernel
  have hplain : Plain adoptedPmm.mem 1 0x1000 := by
    simp only [Plain, PlainEntry]
    decide +kernel
  exact ⟨by decide +kernel, walks_agree adoptedMap_good (pmmInit_sound adoptedMap_good hb) hb (by decide +kernel) rfl
    (adoptedPmm_used (by decide)) hplain (by decide +kernel)⟩

/-- **A large page is taken for a table, and its first bytes are written to; the bit that forbids to execute is
taken for a bit of the address.** -/
theorem large_page_read_as_table :
    GoodMap adoptedMap ∧ adoptedPmm.Sound adoptedMap ∧ adoptedPmm.bitmap ≠ 0 ∧
    (hwAccepts adoptedPmm.mem 1 0x200000 ∧ hwWalk adoptedPmm.mem 3 1 0x200000 = some 0x200000 ∧
      (vmmGetPhysical adoptedSpace 0x200000 adoptedPmm).map Prod.fst = some 0 ∧
      (∃ s', vmmMap adoptedSpace 0x200000 0x7000 3 adoptedPmm = some (true, s') ∧
        ¬ OnlyTables 1 0x200000 adoptedPmm s') ∧ ¬ WalksAgree adoptedSpace 1 0x200000 adoptedPmm) ∧
    hwAccepts adoptedPmm.mem 1 0 ∧ hwWalk adoptedPmm.mem 3 1 0 = some 0x5000 ∧
      (vmmGetPhysical adoptedSpace 0 adoptedPmm).map Prod.fst = some 0x8000000000005000 ∧
      ¬ WalksAgree adoptedSpace 1 0 adoptedPmm := by
  have hb : adoptedPmm.bitmap ≠ 0 := by decide +kernel
  have hother : ∀ {virt r p}, (vmmGetPhysical adoptedSpace virt adoptedPmm).map Prod.fst = some r →
      hwWalk adoptedPmm.mem 3 1 virt = some p → r ≠ p → ¬ WalksAgree adoptedSpace 1 virt adoptedPmm := by
    intro virt r p hr hp hne hagree
    obtain ⟨r', hr', hsame, -⟩ := hagree.physical
    rw [hr', Option.map_some] at hr
    cases hr
    exact hne (hsame p hp)
  have hlarge : hwWalk adoptedPmm.mem 3 1 0x200000 = some 0x200000 := by decide +kernel
  have hnx : hwWalk adoptedPmm.mem 3 1 0 = some 0x5000 := by decide +kernel
  have hnull : (vmmGetPhysical adoptedSpace 0x200000 adoptedPmm).map Prod.fst = some 0 := by decide +kernel
  have hhigh : (vmmGetPhysical adoptedSpace 0 adoptedPmm).map Prod.fst = some 0x8000000000005000 := by decide +kernel
  have hbyte : adoptedPmm.mem 0x200000 = 0 := by decide +kernel
  have hoff : adoptedPmm.bitmapPhys + adoptedPmm.bitmapSize ≤ 0x200000 := by decide +kernel
  have hbefore : ∀ d < 4, ∀ m ∈ hwTable adoptedPmm.mem 1 0x200000 d, m < 512 := by decide +kernel
  have hwrites : (vmmMap adoptedSpace 0x200000 0x7000 3 adoptedPmm).any fun (p : Bool × Pmm) =>
      decide (p.1 = true ∧ p.2.mem 0x200000 ≠ 0 ∧ ∀ d : Nat, d < 4 → ∀ m ∈ hwTable p.2.mem 1 0x200000 d, m < 512) := by
    decide +kernel
  refine ⟨adoptedMap_good, pmmInit_sound adoptedMap_good hb, hb,
    ⟨by decide +kernel, hlarge, hnull, ?_, hother hnull hlarge (by decide)⟩, by decide +kernel, hnx, hhigh,
    hother hhigh hnx (by decide)⟩
  obtain ⟨⟨r, s'⟩, hr, hp⟩ := (Option.any_eq_true _ _).mp hwrites
  obtain ⟨rfl, hchanged, hafter⟩ := of_decide_eq_true hp
  refine ⟨s', hr, fun honly => ?_⟩
  obtain ⟨d, hd, m, hm, hin⟩ := honly 0x200000 (by rw [hbyte]; exact hchanged) (.inr hoff)
  have hlt := hm.elim (hbefore d (by omega) m) (hafter d (by omega) m)
  simp only [InPage, pageSize] at hin
  omega

end Blackmount.Mem
