import Blackmount.Lib.Radix
import Blackmount.Mem.Frames
import Blackmount.Mem.Vmm

/-!
# Mem — page tables as trees

The page tables in physical memory as a forest of radix trees, whose nodes are page numbers.

* `view`, `child`: the entries of the tables, and where an entry leads.
* `Tables`: the tables that certain paths lead to are different pages, in use, outside the bitmap.
* `Grown`: what a walk that makes tables leaves as it was, above all every translation.
* `vmmMap_spec`, `vmmUnmap_spec`, `vmmGetPhysical_spec`: the three operations on one page.
-/

namespace Blackmount.Mem
open Blackmount.Lib

/-- The entries of the table in page `n`. -/
def view (mem : Bytes) (n i : Nat) : Nat := if i < 512 then rd64 mem (n * pageSize + 8 * i) else 0

/-- The page an entry leads to. -/
def child (e : Nat) : Option Nat := if e % 2 = 1 then some (e / pageSize) else none

/-! ### Entries -/

theorem present_iff {e : Nat} : e &&& pagePresent ≠ 0 ↔ e % 2 = 1 := by
  rw [pagePresent, Nat.pow_zero, Nat.and_one_is_mod]
  omega

variable {n i k k' : Nat}

theorem view_congr {mem mem' : Bytes}
    (h : ∀ a, n * pageSize ≤ a ∧ a < n * pageSize + pageSize → mem' a = mem a) (i : Nat) :
    view mem' n i = view mem n i := by
  simp only [view]
  split
  · next hi =>
      refine rd64_congr fun j h₁ h₂ => h j ⟨by omega, ?_⟩
      simp only [pageSize] at h₂ ⊢
      omega
  · rfl

/-- The entries of an empty page. -/
theorem view_zero {mem : Bytes} (h : ∀ a, n * pageSize ≤ a ∧ a < n * pageSize + pageSize → mem a = 0) (i : Nat) :
    view mem n i = 0 := by
  have hzero : view mem n i = view (fun _ => 0) n i := view_congr h i
  rw [hzero]
  simp only [view]
  split
  · rfl
  · rfl

theorem view_wr64 (mem : Bytes) (n e : Nat) (hi : i < 512) :
    view (wr64 mem (n * pageSize + 8 * i) e) = Radix.set (view mem) n i (e % 2 ^ 64) := by
  funext n' i'
  by_cases hself : n' = n ∧ i' = i
  · obtain ⟨rfl, rfl⟩ := hself
    rw [Radix.set_self, view, if_pos hi, rd64_wr64]
  · rw [Radix.set_of_ne hself]
    simp only [view]
    split
    · next hi' =>
        refine rd64_wr64_ne _ _ ?_
        simp only [pageSize]
        omega
    · rfl

/-- An entry with more flags leads where it led. -/
theorem child_or {e g : Nat} (hg : g < pageSize) (heven : g % 2 = 0) : child (e ||| g) = child e := by
  have hdiv : (e ||| g) / pageSize = e / pageSize := by
    have := Nat.shiftRight_or_distrib (i := 12) (a := e) (b := g)
    simp only [Nat.shiftRight_eq_div_pow] at this
    simp only [pageSize] at hg ⊢
    rw [show (4096 : Nat) = 2 ^ 12 from rfl, this, Nat.div_eq_of_lt (a := g) hg, Nat.or_zero]
  have hmod : (e ||| g) % 2 = e % 2 := by
    have := Nat.or_mod_two_pow (a := e) (b := g) (n := 1)
    rw [Nat.pow_one, heven, Nat.or_zero] at this
    exact this
  rw [child, hdiv, hmod, child]

theorem or_lt {e g : Nat} (he : e < 2 ^ 64) (hg : g < pageSize) : e ||| g < 2 ^ 64 :=
  Nat.or_lt_two_pow he (Nat.lt_of_lt_of_le hg (by decide))

/-- The entry for a page. -/
theorem pteCreate_eq {a flags : Nat} (hflags : flags < pageSize) :
    pteCreate a flags = a / pageSize * pageSize + flags := by
  rw [pteCreate, Nat.mul_comm]
  exact (Nat.two_pow_add_eq_or_of_lt (i := 12) hflags (a / pageSize)).symm

theorem flags_present {flags : Nat} (hflags : flags < pageSize) :
    flags ||| pagePresent < pageSize ∧ (flags ||| pagePresent) % 2 = 1 := by
  refine ⟨Nat.or_lt_two_pow (n := 12) hflags (by decide), ?_⟩
  have := Nat.or_mod_two_pow (a := flags) (b := pagePresent) (n := 1)
  rw [Nat.pow_one] at this
  rw [this, pagePresent]
  rcases Nat.mod_two_eq_zero_or_one flags with h | h <;> rw [h] <;> rfl

theorem child_pteCreate {a flags : Nat} (ha : a < 2 ^ 64) (hflags : flags < pageSize) :
    child (pteCreate a (flags ||| pagePresent) % 2 ^ 64) = some (a / pageSize) := by
  obtain ⟨hlt, hodd⟩ := flags_present hflags
  rw [pteCreate_eq hlt]
  generalize flags ||| pagePresent = f at hlt hodd
  simp only [pageSize] at hlt ⊢
  have hmod : (a / 4096 * 4096 + f) % 2 ^ 64 = a / 4096 * 4096 + f := Nat.mod_eq_of_lt (by omega)
  rw [hmod, child, if_pos (by omega)]
  simp only [pageSize]
  congr 1
  omega

theorem view_lt (mem : Bytes) (n i : Nat) : view mem n i < 2 ^ 64 := by
  simp only [view]
  split
  · exact rd64_lt _ _
  · decide

/-! ### The tables -/

variable {s s' : Pmm}

section Tables

variable {R : Type} {memmap : List MemmapEntry} {root : R → Nat} {S : R → List Nat → Prop}

/-- The walks of the processor, through the tables in memory. -/
abbrev walkTo (s : Pmm) (n : Nat) (p : List Nat) : Option Nat := Radix.walk child (view s.mem) n p

/-- A page that one of the paths leads to. -/
abbrev IsTable (s : Pmm) (root : R → Nat) (S : R → List Nat → Prop) (n : Nat) : Prop :=
  Radix.Reached child (view s.mem) root S n

variable (memmap root S) in
/-- The tables that the paths of `S` lead to, from several roots. -/
structure Tables (s : Pmm) : Prop where
  sound : s.Sound memmap
  placed : s.bitmap ≠ 0
  forest : Radix.Forest child (view s.mem) root S
  used : ∀ n, IsTable s root S n → n ∉ s.freePages ∧ s.Outside n

variable (memmap root S) in
/-- From one state to the next at most `k` pages were taken, for tables; no translation changed. -/
structure Grown (k : Nat) (s s' : Pmm) : Prop where
  same : Pmm.Same s s'
  tables : Tables memmap root S s'
  kept : ∀ {r p n}, S r p → walkTo s (root r) p = some n → walkTo s' (root r) p = some n
  last : ∀ {r p j}, S r p → ¬ S r (p ++ [j]) → walkTo s' (root r) (p ++ [j]) = walkTo s (root r) (p ++ [j])
  reached : ∀ n, IsTable s' root S n → IsTable s root S n ∨ n ∈ s.freePages
  free : s'.freePages ⊆ s.freePages
  count : s.freePages.card ≤ s'.freePages.card + k

theorem Grown.refl (h : Tables memmap root S s) : Grown memmap root S 0 s s :=
  ⟨.refl s, h, fun _ hw => hw, fun _ _ => rfl, fun _ hn => .inl hn, Finset.Subset.refl _, Nat.le_refl _⟩

theorem Grown.trans {s s' s'' : Pmm} (h : Grown memmap root S k s s')
    (h' : Grown memmap root S k' s' s'') : Grown memmap root S (k + k') s s'' := by
  refine ⟨h.same.trans h'.same, h'.tables, fun hp hw => h'.kept hp (h.kept hp hw),
    fun hp hj => (h'.last hp hj).trans (h.last hp hj), fun n hn => ?_, h'.free.trans h.free, ?_⟩
  · rcases h'.reached n hn with hn | hn
    · exact h.reached n hn
    · exact .inr (h.free hn)
  · have := h.count
    have := h'.count
    omega

theorem Grown.mono (h : Grown memmap root S k s s') (hk : k ≤ k') :
    Grown memmap root S k' s s' :=
  ⟨h.same, h.tables, h.kept, h.last, h.reached, h.free, Nat.le_trans h.count (by omega)⟩

/-- A write to one entry of a table touches no byte of the bitmap. -/
theorem Tables.write (h : Tables memmap root S s) (hn : IsTable s root S n) (hi : i < 512)
    (e : Nat) :
    ({ s with mem := wr64 s.mem (n * pageSize + 8 * i) e } : Pmm).Sound memmap ∧
      ({ s with mem := wr64 s.mem (n * pageSize + 8 * i) e } : Pmm).freePages = s.freePages := by
  refine h.sound.write fun a ha => wr64_out _ _ ?_
  by_contra hin
  refine ha ((h.used n hn).2.off ?_)
  simp only [pageSize] at hin ⊢
  omega

/-- The state after a write to one entry. -/
def wrote (s : Pmm) (n i e : Nat) : Pmm := { s with mem := wr64 s.mem (n * pageSize + 8 * i) e }

theorem view_wrote (s : Pmm) (n : Nat) {i e : Nat} (hi : i < 512) (he : e < 2 ^ 64) :
    view (wrote s n i e).mem = Radix.set (view s.mem) n i e := by
  rw [wrote, view_wr64 _ _ _ hi, Nat.mod_eq_of_lt he]

/-- An entry written that leads where it led. -/
theorem Tables.flags (h : Tables memmap root S s) {n i e : Nat} (hn : IsTable s root S n) (hi : i < 512)
    (he : e < 2 ^ 64) (hsame : child e = child (view s.mem n i)) : Grown memmap root S 0 s (wrote s n i e) := by
  obtain ⟨hsound, hfree⟩ := h.write hn hi e
  have hwalk : ∀ n₀ p, walkTo (wrote s n i e) n₀ p = walkTo s n₀ p := by
    intro n₀ p
    rw [walkTo, view_wrote s n hi he]
    exact Radix.Forest.same hsame
  have hreached : ∀ n', IsTable (wrote s n i e) root S n' → IsTable s root S n' := by
    rintro n' ⟨r, p, hp, hw⟩
    exact ⟨r, p, hp, (hwalk _ _).symm.trans hw⟩
  refine ⟨⟨rfl, rfl, rfl, rfl⟩, ⟨hsound, h.placed, h.forest.congr fun r p _ => hwalk _ _, fun n' hn' => ?_⟩,
    fun _ hw => (hwalk _ _).trans hw, fun _ _ => hwalk _ _, fun n' hn' => .inl (hreached n' hn'), ?_, ?_⟩
  · rw [show (wrote s n i e).freePages = s.freePages from hfree]
    exact h.used n' (hreached n' hn')
  · rw [show (wrote s n i e).freePages = s.freePages from hfree]
  · rw [show (wrote s n i e).freePages = s.freePages from hfree]
    omega

/-- Tables that are as they were. -/
theorem Tables.aside (h : Tables memmap root S s) (hsound : s'.Sound memmap) (hsame : Pmm.Same s s')
    (hfree : ∀ n, IsTable s root S n → n ∉ s'.freePages)
    (hview : ∀ n, IsTable s root S n → ∀ i, view s'.mem n i = view s.mem n i) :
    Tables memmap root S s' ∧ (∀ r q, S r q → walkTo s' (root r) q = walkTo s (root r) q) ∧
      ∀ {r q j}, S r q → walkTo s' (root r) (q ++ [j]) = walkTo s (root r) (q ++ [j]) := by
  have hwalk : ∀ r q, S r q → walkTo s' (root r) q = walkTo s (root r) q := fun r q hq => h.forest.agree hview hq
  refine ⟨⟨hsound, by rw [hsame.bitmap]; exact h.placed, h.forest.congr hwalk, fun n hn => ?_⟩, hwalk,
    fun {r q j} hq => ?_⟩
  · obtain ⟨r, q, hq, hw⟩ := hn
    have hn : IsTable s root S n := ⟨r, q, hq, (hwalk r q hq).symm.trans hw⟩
    exact ⟨hfree n hn, hsame.outside.mpr (h.used n hn).2⟩
  · have hq' : Radix.walk child (view s'.mem) (root r) q = Radix.walk child (view s.mem) (root r) q := hwalk r q hq
    rw [walkTo, walkTo, Radix.walk_concat, Radix.walk_concat, hq']
    cases hw : Radix.walk child (view s.mem) (root r) q with
    | none => rfl
    | some n => simp only [Option.bind_some, hview n ⟨r, q, hq, hw⟩ j]

/-- A page taken that no path leads to. -/
theorem Tables.alloc (h : Tables memmap root S s) {p : Nat} (hp : p ∈ s.freePages)
    (hsound : s'.Sound memmap) (hsame : Pmm.Same s s') (hset : s'.freePages = s.freePages.erase p)
    (hmem : ∀ a, ¬ (p * pageSize ≤ a ∧ a < p * pageSize + pageSize) → s.OffBitmap a → s'.mem a = s.mem a) :
    Grown memmap root S 1 s s' ∧ (∀ r q, S r q → walkTo s' (root r) q = walkTo s (root r) q) ∧
      ∀ n, IsTable s root S n → ∀ i, view s'.mem n i = view s.mem n i := by
  have hview : ∀ n, IsTable s root S n → ∀ i, view s'.mem n i = view s.mem n i := by
    intro n hn
    obtain ⟨hnot, hout⟩ := h.used n hn
    refine view_congr fun a ha => hmem a (fun hpa => hnot ?_) (hout.off ha)
    have : n = p := by
      simp only [pageSize] at ha hpa
      omega
    rw [this]
    exact hp
  obtain ⟨htables, hwalk, hleaf⟩ := h.aside hsound hsame
    (fun n hn hin => (h.used n hn).1 (Finset.mem_of_mem_erase (hset ▸ hin))) hview
  have hreached : ∀ n, IsTable s' root S n → IsTable s root S n := by
    rintro n ⟨r, q, hq, hw⟩
    exact ⟨r, q, hq, (hwalk r q hq).symm.trans hw⟩
  have hcard := Finset.card_erase_add_one hp
  refine ⟨⟨hsame, htables, fun hq hw => (hwalk _ _ hq).trans hw, fun {r q j} hq _ => hleaf hq,
    fun n hn => .inl (hreached n hn), ?_, ?_⟩, hwalk, hview⟩
  · rw [hset]
    exact Finset.erase_subset _ _
  · rw [hset]
    omega

/-- A page freed that no path leads to. -/
theorem Tables.release (h : Tables memmap root S s) {p : Nat} (hp : ¬ IsTable s root S p)
    (hsound : s'.Sound memmap) (hsame : Pmm.Same s s') (hset : s'.freePages ⊆ insert p s.freePages)
    (hmem : ∀ a, s.OffBitmap a → s'.mem a = s.mem a) :
    Tables memmap root S s' ∧ (∀ r q, S r q → walkTo s' (root r) q = walkTo s (root r) q) ∧
      ∀ {r q j}, S r q → walkTo s' (root r) (q ++ [j]) = walkTo s (root r) (q ++ [j]) := by
  refine h.aside hsound hsame (fun n hn hfree => ?_) fun n hn => view_congr fun a ha => hmem a ((h.used n hn).2.off ha)
  rcases Finset.mem_insert.mp (hset hfree) with rfl | hfree
  · exact hp hn
  · exact (h.used n hn).1 hfree

/-- A new table under an entry that led nowhere. -/
theorem Tables.graft (h : Tables memmap root S s) {r : R} {q : List Nat} {n i c e : Nat} (hq : S r q)
    (hin : S r (q ++ [i])) (hw : walkTo s (root r) q = some n) (hi : i < 512) (hnone : child (view s.mem n i) = none)
    (hc : ¬ IsTable s root S c) (hcfree : c ∉ s.freePages) (hcout : s.Outside c) (hzero : ∀ j, view s.mem c j = 0)
    (he : e < 2 ^ 64) (hchild : child e = some c) :
    walkTo (wrote s n i e) (root r) (q ++ [i]) = some c ∧ Tables memmap root S (wrote s n i e) ∧
      (∀ r p n', S r p → walkTo s (root r) p = some n' → walkTo (wrote s n i e) (root r) p = some n') ∧
      (∀ r p j, S r p → ¬ S r (p ++ [j]) →
        walkTo (wrote s n i e) (root r) (p ++ [j]) = walkTo s (root r) (p ++ [j])) ∧
      (∀ n', IsTable (wrote s n i e) root S n' → IsTable s root S n' ∨ n' = c) ∧
      (wrote s n i e).freePages = s.freePages := by
  classical
  have hempty : ∀ j, child (view s.mem c j) = none := fun j => by rw [hzero j]; rfl
  obtain ⟨hsound, hfree⟩ := h.write ⟨r, q, hq, hw⟩ hi e
  have hview := view_wrote s n hi he
  have hwalk : ∀ r' p, S r' p → walkTo (wrote s n i e) (root r') p =
      if r' = r ∧ p = q ++ [i] then some c else walkTo s (root r') p := by
    intro r' p hp
    rw [walkTo, hview]
    exact h.forest.graft hq hw hnone hchild hc hempty hp
  have hreached : ∀ n', IsTable (wrote s n i e) root S n' → IsTable s root S n' ∨ n' = c := by
    rintro n' ⟨r', p, hp, hw'⟩
    have hw' := (hwalk r' p hp).symm.trans hw'
    split at hw'
    · cases hw'
      exact .inr rfl
    · exact .inl ⟨r', p, hp, hw'⟩
  refine ⟨by rw [hwalk r _ hin, if_pos ⟨rfl, rfl⟩], ⟨hsound, h.placed, ?_, fun n' hn' => ?_⟩, fun r' p n' hp hw' => ?_,
    fun r' p j hp hj => ?_, hreached, hfree⟩
  · rw [hview]
    exact h.forest.graft_forest hq hw hnone hchild hc hempty
  · rw [show (wrote s n i e).freePages = s.freePages from hfree]
    rcases hreached n' hn' with hn' | rfl
    · exact h.used n' hn'
    · exact ⟨hcfree, hcout⟩
  · rw [hwalk r' p hp, if_neg]
    · exact hw'
    · rintro ⟨rfl, rfl⟩
      rw [walkTo, Radix.walk_concat, show Radix.walk child (view s.mem) (root r') q = some n from hw, Option.bind_some,
        hnone] at hw'
      cases hw'
  · rw [walkTo, hview]
    exact h.forest.graft_last hq hw hnone hchild hc hempty hin hp hj

/-! ### `vmm_get_next_level` -/

section NextLevel

variable {s : Pmm} {n i flags : Nat} {create : Bool}

theorem getEntry_run (hi : i < 512) : getEntry (n * pageSize) i s = some (view s.mem n i, s) := by
  rw [view, if_pos hi]
  rfl

theorem nextLevel_present (hi : i < 512) (h : view s.mem n i % 2 = 1) :
    vmmGetNextLevel (n * pageSize) i create flags s =
      some (some (view s.mem n i / pageSize * pageSize),
        wrote s n i (view s.mem n i ||| flags &&& (pageUser ||| pageWrite))) := by
  rw [vmmGetNextLevel, bind_run, getEntry_run hi, Option.bind_some]
  simp only
  rw [if_pos (present_iff.mpr h)]
  rfl

theorem nextLevel_absent (hi : i < 512) (h : ¬ view s.mem n i % 2 = 1) :
    vmmGetNextLevel (n * pageSize) i false flags s = some (none, s) := by
  rw [vmmGetNextLevel, bind_run, getEntry_run hi, Option.bind_some]
  simp only
  rw [if_neg (mt present_iff.mp h)]
  rfl

theorem nextLevel_full (hi : i < 512) (h : ¬ view s.mem n i % 2 = 1) (ha : pmmAlloc s = some (0, s)) :
    vmmGetNextLevel (n * pageSize) i true flags s = some (none, s) := by
  rw [vmmGetNextLevel, bind_run, getEntry_run hi, Option.bind_some]
  simp only
  rw [if_neg (mt present_iff.mp h), if_neg (by decide), bind_run, show allocFrame s = some (0, s) from ha]
  rfl

theorem nextLevel_new {phys : UInt64} {s₁ : Pmm} (hi : i < 512) (h : ¬ view s.mem n i % 2 = 1)
    (ha : pmmAlloc s = some (phys, s₁)) (hphys : phys ≠ 0) :
    vmmGetNextLevel (n * pageSize) i true flags s =
      some (some phys.toNat, wrote (s₁.clear phys.toNat pageSize) n i (pteCreate phys.toNat (flags ||| pagePresent))) := by
  rw [vmmGetNextLevel, bind_run, getEntry_run hi, Option.bind_some]
  simp only
  rw [if_neg (mt present_iff.mp h), if_neg (by decide), bind_run, show allocFrame s = some (phys, s₁) from ha,
    Option.bind_some]
  simp only
  rw [if_neg hphys]
  rfl

end NextLevel

/-- Clearing a page that is clear. -/
theorem clear_clear {p : Nat} (h : ∀ a, p * pageSize ≤ a ∧ a < p * pageSize + pageSize → s.mem a = 0) :
    s.clear (p * pageSize) pageSize = s := by
  have : splice s.mem (p * pageSize) pageSize (fun _ => 0) = s.mem := by
    funext a
    by_cases ha : p * pageSize ≤ a ∧ a < p * pageSize + pageSize
    · have := splice_in s.mem (o := p * pageSize) (n := pageSize) (j := a - p * pageSize) (fun _ => 0) (by omega)
      rw [show p * pageSize + (a - p * pageSize) = a by omega] at this
      rw [this, h a ha]
    · exact splice_out _ _ (by omega)
  rw [Pmm.clear, this]

/-- **The next level, created when it is missing.** -/
theorem Tables.nextLevel (hmap : GoodMap memmap) (h : Tables memmap root S s) {r : R} {q : List Nat}
    {n i flags : Nat} (hq : S r q) (hin : S r (q ++ [i])) (hw : walkTo s (root r) q = some n) (hi : i < 512)
    (hflags : flags < pageSize) :
    (vmmGetNextLevel (n * pageSize) i true flags s = some (none, s) ∧ s.freePages = ∅) ∨
      ∃ c s', vmmGetNextLevel (n * pageSize) i true flags s = some (some (c * pageSize), s') ∧
        Grown memmap root S 1 s s' ∧ walkTo s' (root r) (q ++ [i]) = some c := by
  have hn : IsTable s root S n := ⟨r, q, hq, hw⟩
  have hstep : ∀ s' : Pmm, walkTo s' (root r) q = some n →
      walkTo s' (root r) (q ++ [i]) = child (view s'.mem n i) := by
    intro s' hw'
    rw [walkTo, Radix.walk_concat, show Radix.walk child (view s'.mem) (root r) q = some n from hw', Option.bind_some]
  by_cases hpres : view s.mem n i % 2 = 1
  · right
    have hg : flags &&& (pageUser ||| pageWrite) < pageSize :=
      Nat.lt_of_le_of_lt Nat.and_le_right (by decide)
    have heven : (flags &&& (pageUser ||| pageWrite)) % 2 = 0 := by
      have := Nat.and_mod_two_pow (a := flags) (b := pageUser ||| pageWrite) (n := 1)
      rw [Nat.pow_one] at this
      rw [this, show (pageUser ||| pageWrite) % 2 = 0 from rfl, Nat.and_zero]
    have hgrown := h.flags hn hi (or_lt (view_lt s.mem n i) hg) (child_or hg heven)
    refine ⟨_, _, nextLevel_present hi hpres, hgrown.mono (by omega), ?_⟩
    rw [hstep _ (hgrown.kept hq hw), view_wrote s n hi (or_lt (view_lt s.mem n i) hg), Radix.set_self, child_or hg heven,
      child, if_pos hpres]
  · have hnone : child (view s.mem n i) = none := if_neg hpres
    rcases h.sound.alloc hmap h.placed with ⟨hr, hempty⟩ | ⟨p, s₁, hr, hp, hp0, haddr, hsound, hsame, hset, hzero, hmem⟩
    · exact .inl ⟨nextLevel_full hi hpres hr, hempty⟩
    · right
      obtain ⟨hgrown, hwalk, hview⟩ := h.alloc hp hsound hsame hset hmem
      have hphys : pageAddr p ≠ 0 := by
        intro e
        rw [e] at haddr
        simp only [pageSize, UInt64.toNat_zero] at haddr
        omega
      have hlt := ((Pmm.mem_freePages h.placed).mp hp).1
      have h52 := h.sound.sized.total
      have hentry := child_pteCreate (a := p * pageSize) (by simp only [pageSize]; omega) hflags
      rw [Nat.mul_div_cancel _ (by decide)] at hentry
      have hsmall : pteCreate (p * pageSize) (flags ||| pagePresent) < 2 ^ 64 := by
        obtain ⟨hf, -⟩ := flags_present hflags
        rw [pteCreate_eq hf]
        simp only [pageSize] at hf ⊢
        omega
      rw [Nat.mod_eq_of_lt hsmall] at hentry
      have hnot : ¬ IsTable s₁ root S p := by
        intro ht
        obtain ⟨r', q', hq', hw'⟩ := ht
        exact (h.used p ⟨r', q', hq', (hwalk r' q' hq').symm.trans hw'⟩).1 hp
      obtain ⟨hnew, htables, hkept, hlast, hreached, hfree⟩ := hgrown.tables.graft hq hin ((hwalk r q hq).trans hw) hi
        (by rw [hview n hn]; exact hnone) hnot (by rw [hset]; exact Finset.notMem_erase _ _)
        (hsame.outside.mpr (h.sound.free p hp).2)
        (view_zero hzero) hsmall hentry
      refine ⟨p, _, by rw [nextLevel_new hi hpres hr hphys, haddr, clear_clear hzero], ⟨?_, htables,
        fun hp' hw' => hkept _ _ _ hp' (hgrown.kept hp' hw'), fun hp' hj => (hlast _ _ _ hp' hj).trans (hgrown.last hp' hj),
        fun x hx => ?_, by rw [hfree]; exact hgrown.free, by rw [hfree]; exact hgrown.count⟩, hnew⟩
      · exact ⟨hsame.bitmap, hsame.hhdmOffset, hsame.bitmapSize, hsame.totalPages⟩
      · rcases hreached x hx with hx | rfl
        · exact hgrown.reached x hx
        · exact .inr hp

/-- **The next level, when it is there**, and flags that add nothing. -/
theorem nextLevel_found {n i c : Nat} {create : Bool} (hi : i < 512) (h : child (view s.mem n i) = some c) :
    vmmGetNextLevel (n * pageSize) i create 0 s = some (some (c * pageSize), s) := by
  have hpres : view s.mem n i % 2 = 1 := by
    by_contra hne
    rw [child, if_neg hne] at h
    cases h
  rw [child, if_pos hpres] at h
  cases h
  rw [nextLevel_present hi hpres, Nat.zero_and, Nat.or_zero, wrote, view, if_pos hi, wr64_rd64]

theorem nextLevel_missing (hi : i < 512) (h : child (view s.mem n i) = none) :
    vmmGetNextLevel (n * pageSize) i false 0 s = some (none, s) := by
  refine nextLevel_absent hi fun hpres => ?_
  rw [child, if_pos hpres] at h
  cases h

/-! ### One page -/

variable (memmap root S) in
/-- One entry at the last level leads to `x` now, and no other entry there changed. -/
structure Remaps (k : Nat) (r : R) (q : List Nat) (i : Nat) (x : Option Nat) (s s' : Pmm) : Prop where
  same : Pmm.Same s s'
  tables : Tables memmap root S s'
  kept : ∀ {r p n}, S r p → walkTo s (root r) p = some n → walkTo s' (root r) p = some n
  here : walkTo s' (root r) (q ++ [i]) = x
  last : ∀ {r' p j}, S r' p → ¬ S r' (p ++ [j]) → ¬ (r' = r ∧ p = q ∧ j = i) →
    walkTo s' (root r') (p ++ [j]) = walkTo s (root r') (p ++ [j])
  reached : ∀ n, IsTable s' root S n → IsTable s root S n ∨ n ∈ s.freePages
  free : s'.freePages ⊆ s.freePages
  count : s.freePages.card ≤ s'.freePages.card + k

theorem Tables.remap (h : Tables memmap root S s) {r : R} {q : List Nat} {n i e : Nat} (hq : S r q)
    (hlast : ¬ S r (q ++ [i])) (hw : walkTo s (root r) q = some n) (hi : i < 512) (he : e < 2 ^ 64) :
    Remaps memmap root S 0 r q i (child e) s (wrote s n i e) := by
  obtain ⟨hsound, hfree⟩ := h.write ⟨r, q, hq, hw⟩ hi e
  have hfree : (wrote s n i e).freePages = s.freePages := hfree
  have hview := view_wrote s n hi he
  have hwalk : ∀ r' p, S r' p → walkTo (wrote s n i e) (root r') p = walkTo s (root r') p := by
    intro r' p hp
    rw [walkTo, hview]
    exact h.forest.leaf hq hw hlast hp
  have hreached : ∀ n', IsTable (wrote s n i e) root S n' → IsTable s root S n' := by
    rintro n' ⟨r', p, hp, hw'⟩
    exact ⟨r', p, hp, (hwalk r' p hp).symm.trans hw'⟩
  refine ⟨⟨rfl, rfl, rfl, rfl⟩, ⟨hsound, h.placed, h.forest.congr hwalk, fun n' hn' => ?_⟩,
    fun hp hw' => (hwalk _ _ hp).trans hw', ?_, fun hp _ hne => ?_, fun n' hn' => .inl (hreached n' hn'),
    by rw [hfree], by rw [hfree]; omega⟩
  · rw [hfree]
    exact h.used n' (hreached n' hn')
  · have hq' : Radix.walk child (view (wrote s n i e).mem) (root r) q = some n := (hwalk r q hq).trans hw
    rw [walkTo, Radix.walk_concat, hq', Option.bind_some, hview, Radix.set_self]
  · rw [walkTo, hview]
    exact h.forest.leaf_last hq hw hlast hp hne

theorem Grown.remaps {s s' s'' : Pmm} {r : R} {q : List Nat} {x : Option Nat}
    (h : Grown memmap root S k s s') (h' : Remaps memmap root S k' r q i x s' s'') :
    Remaps memmap root S (k + k') r q i x s s'' := by
  refine ⟨h.same.trans h'.same, h'.tables, fun hp hw => h'.kept hp (h.kept hp hw), h'.here,
    fun hp hj hne => (h'.last hp hj hne).trans (h.last hp hj), fun n hn => ?_, h'.free.trans h.free, ?_⟩
  · rcases h'.reached n hn with hn | hn
    · exact h.reached n hn
    · exact .inr (h.free hn)
  · have := h.count
    have := h'.count
    omega

/-- The path to the page table. -/
def tablePath (virt : Nat) : List Nat := [pml4Index virt, pdptIndex virt, pdIndex virt]

variable (S) in
/-- The tables on the path to the page are looked at, and what its entry leads to is not. -/
structure Covers (r : R) (virt : Nat) : Prop where
  tables : S r [] ∧ S r [pml4Index virt] ∧ S r [pml4Index virt, pdptIndex virt] ∧ S r (tablePath virt)
  page : ¬ S r (tablePath virt ++ [ptIndex virt])

section Page

variable {s : Pmm} {space : AddressSpace} {r : R} {virt : Nat} {α : Type} {fail : α} {k : Nat → VmmM α}

theorem index_lt (virt : Nat) : pml4Index virt < 512 ∧ pdptIndex virt < 512 ∧ pdIndex virt < 512 ∧ ptIndex virt < 512 := by
  simp only [pml4Index, pdptIndex, pdIndex, ptIndex]
  exact ⟨Nat.mod_lt _ (by decide), Nat.mod_lt _ (by decide), Nat.mod_lt _ (by decide), Nat.mod_lt _ (by decide)⟩

/-- What a step down keeps, with the depth and the table it comes to. -/
abbrev StepsDown (I : Nat → Nat → Pmm → Prop) (F : Pmm → Prop) (create : Bool) (flags d index : Nat) : Prop :=
  ∀ m t, I d m t → (vmmGetNextLevel (m * pageSize) index create flags t = some (none, t) ∧ F t) ∨
    ∃ c t', vmmGetNextLevel (m * pageSize) index create flags t = some (some (c * pageSize), t') ∧ I (d + 1) c t'

/-- **The walk down to the page table**, by what each step keeps. -/
theorem withPageTable_run {I : Nat → Nat → Pmm → Prop} {F : Pmm → Prop} {create : Bool} {flags n : Nat}
    (h₀ : StepsDown I F create flags 0 (pml4Index virt)) (h₁ : StepsDown I F create flags 1 (pdptIndex virt))
    (h₂ : StepsDown I F create flags 2 (pdIndex virt)) (hs : I 0 n s) (hroot : space.pml4 = n * pageSize) (fail : α)
    (k : Nat → VmmM α) :
    (∃ d m s', d ≤ 2 ∧ Mem.withPageTable space virt create flags fail k s = some (fail, s') ∧ I d m s' ∧ F s') ∨
      ∃ pt s', Mem.withPageTable space virt create flags fail k s = k (pt * pageSize) s' ∧ I 3 pt s' := by
  rw [Mem.withPageTable, hroot]
  rcases h₀ n s hs with ⟨hr, hF⟩ | ⟨pdpt, s₁, hr₁, hs₁⟩
  · exact .inl ⟨0, n, s, by omega, by rw [bind_run, hr]; rfl, hs, hF⟩
  rw [bind_run, hr₁, Option.bind_some]
  simp only
  rcases h₁ pdpt s₁ hs₁ with ⟨hr, hF⟩ | ⟨pd, s₂, hr₂, hs₂⟩
  · exact .inl ⟨1, pdpt, s₁, by omega, by rw [bind_run, hr]; rfl, hs₁, hF⟩
  rw [bind_run, hr₂, Option.bind_some]
  simp only
  rcases h₂ pd s₂ hs₂ with ⟨hr, hF⟩ | ⟨pt, s₃, hr₃, hs₃⟩
  · exact .inl ⟨2, pd, s₂, by omega, by rw [bind_run, hr]; rfl, hs₂, hF⟩
  · exact .inr ⟨pt, s₃, by rw [bind_run, hr₃, Option.bind_some], hs₃⟩

/-- The walk that creates what is missing. -/
theorem Tables.withPageTable (hmap : GoodMap memmap) (h : Tables memmap root S s) (hc : Covers S r virt)
    (hroot : space.pml4 = root r * pageSize) (fail : α) (k : Nat → VmmM α) {flags : Nat} (hflags : flags < pageSize) :
    (∃ s', Mem.withPageTable space virt true flags fail k s = some (fail, s') ∧ Grown memmap root S 2 s s' ∧
        s'.freePages = ∅) ∨
      ∃ pt s', Mem.withPageTable space virt true flags fail k s = k (pt * pageSize) s' ∧
        Grown memmap root S 3 s s' ∧ walkTo s' (root r) (tablePath virt) = some pt := by
  obtain ⟨h4, h3, h2, -⟩ := index_lt virt
  obtain ⟨hS₀, hS₁, hS₂, hS₃⟩ := hc.tables
  -- at depth `d`, `d` pages were taken at most
  have hdown : ∀ {d i}, i < 512 → S r ((tablePath virt).take d) → S r ((tablePath virt).take d ++ [i]) →
      (tablePath virt).take (d + 1) = (tablePath virt).take d ++ [i] →
      StepsDown (fun d m t => Grown memmap root S d s t ∧ walkTo t (root r) ((tablePath virt).take d) = some m)
        (fun t => t.freePages = ∅) true flags d i := by
    intro d i hi hq hin htake m t ⟨hg, hw⟩
    rcases hg.tables.nextLevel hmap hq hin hw hi hflags with ⟨hr, hempty⟩ | ⟨c, t', hr, hg', hw'⟩
    · exact .inl ⟨hr, hempty⟩
    · refine .inr ⟨c, t', hr, hg.trans hg', ?_⟩
      rw [htake]
      exact hw'
  rcases withPageTable_run (hdown h4 hS₀ hS₁ rfl) (hdown h3 hS₁ hS₂ rfl) (hdown h2 hS₂ hS₃ rfl) ⟨Grown.refl h, rfl⟩ hroot
    fail k with ⟨d, m, s', hd, hr, ⟨hg, -⟩, hempty⟩ | ⟨pt, s', hr, hg, hw⟩
  · exact .inl ⟨s', hr, hg.mono hd, hempty⟩
  · exact .inr ⟨pt, s', hr, hg, hw⟩

/-- The walk that creates nothing changes nothing. -/
theorem withPageTable_find (hroot : space.pml4 = n * pageSize) :
    Mem.withPageTable space virt false 0 fail k s =
      match walkTo s n (tablePath virt) with
      | none => some (fail, s)
      | some pt => k (pt * pageSize) s := by
  obtain ⟨h4, h3, h2, -⟩ := index_lt virt
  rw [Mem.withPageTable, hroot]
  simp only [walkTo, tablePath, Radix.walk]
  cases hpdpt : child (view s.mem n (pml4Index virt)) with
  | none =>
      rw [bind_run, nextLevel_missing h4 hpdpt]
      rfl
  | some pdpt =>
      rw [bind_run, nextLevel_found h4 hpdpt, Option.bind_some, Option.bind_some]
      simp only
      cases hpd : child (view s.mem pdpt (pdptIndex virt)) with
      | none =>
          rw [bind_run, nextLevel_missing h3 hpd]
          rfl
      | some pd =>
          rw [bind_run, nextLevel_found h3 hpd, Option.bind_some, Option.bind_some]
          simp only
          cases hpt : child (view s.mem pd (pdIndex virt)) with
          | none =>
              rw [bind_run, nextLevel_missing h2 hpt]
              rfl
          | some pt =>
              rw [bind_run, nextLevel_found h2 hpt, Option.bind_some]
              rfl

theorem index_pageOf (virt : Nat) : pml4Index (pageOf virt) = pml4Index virt ∧ pdptIndex (pageOf virt) = pdptIndex virt ∧
    pdIndex (pageOf virt) = pdIndex virt ∧ ptIndex (pageOf virt) = ptIndex virt := by
  simp only [pml4Index, pdptIndex, pdIndex, ptIndex, pageOf, pageSize]
  refine ⟨?_, ?_, ?_, ?_⟩ <;> (congr 1; omega)

theorem tablePath_pageOf (virt : Nat) : tablePath (pageOf virt) = tablePath virt := by
  obtain ⟨h4, h3, h2, -⟩ := index_pageOf virt
  rw [tablePath, h4, h3, h2, tablePath]

theorem Covers.pageOf (h : Covers S r virt) : Covers S r (Mem.pageOf virt) := by
  obtain ⟨h4, h3, h2, h1⟩ := index_pageOf virt
  refine ⟨?_, ?_⟩
  · rw [tablePath_pageOf, h4, h3]
    exact h.tables
  · rw [tablePath_pageOf, h1]
    exact h.page

/-- **`vmm_map`** maps the page and changes no other translation; it fails only when no page is left. -/
theorem vmmMap_spec (hmap : GoodMap memmap) (h : Tables memmap root S s) (hc : Covers S r virt)
    (hroot : space.pml4 = root r * pageSize) {phys flags : Nat} (hphys : phys < 2 ^ 64) (hflags : flags < pageSize) :
    (∃ s', vmmMap space virt phys flags s = some (false, s') ∧ Grown memmap root S 2 s s' ∧ s'.freePages = ∅) ∨
      ∃ s', vmmMap space virt phys flags s = some (true, s') ∧
        Remaps memmap root S 3 r (tablePath virt) (ptIndex virt) (some (phys / pageSize)) s s' := by
  obtain ⟨-, -, -, h1⟩ := index_lt virt
  have hwalk : pageWrite ||| pageUser < pageSize := by decide
  rcases h.withPageTable hmap hc.pageOf hroot false _ hwalk with
    ⟨s', hr, hg, hempty⟩ | ⟨pt, s', hr, hg, hw⟩
  · exact .inl ⟨s', hr, hg, hempty⟩
  · right
    rw [tablePath_pageOf] at hw
    obtain ⟨hf, -⟩ := flags_present hflags
    have hsmall : pteCreate phys (flags ||| pagePresent) < 2 ^ 64 := by
      rw [pteCreate_eq hf]
      simp only [pageSize] at hf ⊢
      omega
    have hremap := hg.tables.remap (e := pteCreate phys (flags ||| pagePresent)) hc.tables.2.2.2 hc.page hw h1 hsmall
    have hentry := child_pteCreate hphys hflags
    rw [Nat.mod_eq_of_lt hsmall] at hentry
    rw [hentry] at hremap
    refine ⟨_, ?_, hg.remaps hremap⟩
    rw [vmmMap, hr, (index_pageOf virt).2.2.2]
    rfl

/-- Nothing changes when an entry that leads nowhere is to lead nowhere. -/
theorem Tables.remaps_refl (h : Tables memmap root S s) {q : List Nat} {x : Option Nat}
    (hx : walkTo s (root r) (q ++ [i]) = x) : Remaps memmap root S 0 r q i x s s :=
  ⟨.refl s, h, fun _ hw => hw, hx, fun _ _ _ => rfl, fun _ hn => .inl hn, Finset.Subset.refl _, Nat.le_refl _⟩

/-- **`vmm_unmap`** takes the page's translation away and changes no other. -/
theorem vmmUnmap_spec (h : Tables memmap root S s) (hc : Covers S r virt) (hroot : space.pml4 = root r * pageSize) :
    ∃ s', vmmUnmap space virt s = some ((), s') ∧
      Remaps memmap root S 0 r (tablePath virt) (ptIndex virt) none s s' := by
  obtain ⟨-, -, -, h1⟩ := index_lt virt
  rw [vmmUnmap, withPageTable_find hroot, tablePath_pageOf, (index_pageOf virt).2.2.2]
  cases hw : walkTo s (root r) (tablePath virt) with
  | none =>
      refine ⟨s, rfl, h.remaps_refl ?_⟩
      rw [walkTo, Radix.walk_concat, show Radix.walk child (view s.mem) (root r) (tablePath virt) = none from hw,
        Option.bind_none]
  | some pt => exact ⟨_, rfl, h.remap (e := 0) hc.tables.2.2.2 hc.page hw h1 (by decide)⟩

/-- **`vmm_get_physical`** reads the translation, and changes nothing. -/
theorem vmmGetPhysical_spec (hroot : space.pml4 = n * pageSize) :
    vmmGetPhysical space virt s =
      some ((walkTo s n (tablePath virt ++ [ptIndex virt])).elim 0 fun f => f * pageSize + virt % pageSize, s) := by
  obtain ⟨-, -, -, h1⟩ := index_lt virt
  rw [vmmGetPhysical, withPageTable_find hroot]
  cases hw : walkTo s n (tablePath virt) with
  | none =>
      rw [walkTo, Radix.walk_concat, show Radix.walk child (view s.mem) n (tablePath virt) = none from hw]
      rfl
  | some pt =>
      have hlast : walkTo s n (tablePath virt ++ [ptIndex virt]) = child (view s.mem pt (ptIndex virt)) := by
        rw [walkTo, Radix.walk_concat, show Radix.walk child (view s.mem) n (tablePath virt) = some pt from hw,
          Option.bind_some]
      simp only
      rw [hlast, bind_run, getEntry_run h1, Option.bind_some, child]
      simp only
      by_cases hpres : view s.mem pt (ptIndex virt) % 2 = 1
      · rw [if_neg (present_iff.mpr hpres), if_pos hpres]
        have hor := pteCreate_eq (a := view s.mem pt (ptIndex virt)) (Nat.mod_lt virt (show 0 < pageSize by decide))
        rw [pteCreate] at hor
        rw [pteGetAddr, hor]
        rfl
      · rw [if_pos (by_contra fun hne => hpres (present_iff.mp hne)), if_neg hpres]
        rfl

end Page

end Tables

end Blackmount.Mem
