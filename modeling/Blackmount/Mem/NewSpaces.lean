import Blackmount.Mem.KernelHalf
import Blackmount.Mem.UserSpaces

/-!
# Mem — the spaces there are

The tables of the boot loader, as long as the way to `VMM_SCRATCH_VA` is as the processor reads it, and every space that
`vmm_create_address_space` adds to them.

* `Spaces.boot`: the kernel's tables alone.
* `Spaces.created`: one more space.
-/

namespace Blackmount.Mem
open Blackmount.Lib

section Boot

variable {memmap : List MemmapEntry} {kroot : Nat} {s : Pmm}

/-- **The tables of the boot loader** are in order when there is a table for the addresses of the kernel. -/
theorem Spaces.boot (h : Trees memmap (· = kroot) s) (hplain : PlainTables s.mem kroot vmmScratchVa)
    (hpresent : hwNext 3 (view s.mem kroot 511) ≠ none) : Spaces memmap kroot (fun _ => False) s := by
  have hroots : AnyRoot kroot (fun _ => False) = (· = kroot) := by
    funext r
    simp only [AnyRoot, or_false]
  have hwalk : ∀ {r p n}, Looked kroot (fun _ => False) r p → walkTo s r p = some n →
      r = kroot ∧ p <+: tablePath vmmScratchVa ∧ p.length ≤ 3 ∧ hwTable s.mem kroot vmmScratchVa p.length = some n := by
    rintro r p n (⟨rfl, hp⟩ | ⟨hr, -⟩) hw
    · have hlen : p.length ≤ 3 := hp.length_le
      refine ⟨rfl, hp, hlen, ?_⟩
      rw [hwTable_plain s hplain hlen, ← List.prefix_iff_eq_take.mp hp]
      exact hw
    · exact hr.elim
  refine ⟨by rw [hroots]; exact h, ⟨h.sound, h.placed, ⟨looked_closed, fun {r p r' p' n} hp hp' hw hw' => ?_⟩, ?_⟩,
    fun hr => ?_, fun hr => hr.elim, fun hr _ => ?_, hpresent, fun hr => hr.elim, fun hr => hr.elim⟩
  · obtain ⟨rfl, hpre, hlen, ht⟩ := hwalk hp hw
    obtain ⟨hr', hpre', hlen', ht'⟩ := hwalk hp' hw'
    have hsame := h.typed rfl rfl hlen hlen' ht ht'
    refine ⟨hr'.symm, ?_⟩
    rw [List.prefix_iff_eq_take.mp hpre, List.prefix_iff_eq_take.mp hpre', hsame]
  · rintro n ⟨r, p, hp, hw⟩
    obtain ⟨-, -, hlen, ht⟩ := hwalk hp hw
    exact h.used rfl hlen ht
  · rw [hroots] at hr
    exact hr ▸ hplain
  · rw [hroots] at hr
    rw [hr]

end Boot

section Created

variable {memmap : List MemmapEntry} {kroot : Nat} {roots : Nat → Prop} {kernel : AddressSpace} {s s' : Pmm} {f n : Nat}

/-- Under a PML4 with an empty lower half there is no table in that half. -/
theorem empty_lower (hlower : ∀ i, i < 256 → view s.mem n i = 0) {v d m : Nat} (hv : v < 2 ^ 47)
    (hm : hwTable s.mem n v d = some m) : d = 0 ∧ m = n := by
  cases d with
  | zero =>
      cases hm
      exact ⟨rfl, rfl⟩
  | succ d =>
      obtain ⟨m₁, hm₁⟩ := Option.isSome_iff_exists.mp (hwTable_above (d := 1) (k := d + 1) (by rw [hm]; rfl) (by omega))
      have htop : hwTable s.mem n v 0 = some n := rfl
      have hindex : hwIndex 3 v < 256 := by
        simp only [hwIndex]
        omega
      rw [hwTable_succ htop, hlower _ hindex] at hm₁
      cases hm₁

/-- Under PML4s with the same upper half the tables of that half are the same. -/
theorem same_upper (hupper : ∀ i, 256 ≤ i → view s.mem n i = view s.mem kroot i) {v : Nat} (hv : 256 ≤ hwIndex 3 v) :
    ∀ {d : Nat}, 0 < d → hwTable s.mem n v d = hwTable s.mem kroot v d := by
  intro d
  induction d with
  | zero => exact fun h => absurd h (Nat.lt_irrefl 0)
  | succ d ih =>
      intro _
      rcases Nat.eq_zero_or_pos d with rfl | hd
      · have htop : ∀ x, hwTable s.mem x v 0 = some x := fun _ => rfl
        rw [hwTable_succ (htop n), hwTable_succ (htop kroot), hupper _ hv]
      · rw [hwTable, hwTable, ih hd]

theorem looked_created {r : Nat} {p : List Nat} :
    Looked kroot (fun r => roots r ∨ r = n) r p ↔ Looked kroot roots r p ∨ r = n ∧ Lower () p := by
  simp only [Looked, or_and_right, or_assoc]

/-- **One more space** has tables of its own in the lower half, none but its PML4 yet, and shares the kernel's. -/
theorem Spaces.created (hmap : GoodMap memmap) (h : Spaces memmap kroot roots s) (hroot : kernel.pml4 = kroot * pageSize)
    (hc : Created memmap kernel s f n s') : Spaces memmap kroot (fun r => roots r ∨ r = n) s' := by
  obtain ⟨hf, hn, -⟩ := hc.pages
  have hroots : AnyRoot kroot (fun r => roots r ∨ r = n) = fun r => AnyRoot kroot roots r ∨ r = n := by
    funext r
    simp only [AnyRoot, or_assoc]
  have hfree : s'.freePages ⊆ s.freePages := by
    rw [hc.free]
    exact (Finset.erase_subset _ _).trans (Finset.erase_subset _ _)
  obtain ⟨hspaces, htable, -⟩ := h.aside hc.sound hc.same
    (fun ⟨_, _, _, hr, hd, hm⟩ hin => (h.trees.used hr hd hm).1 (hfree hin)) fun ⟨_, _, _, hr, hd, hm⟩ a ha => by
      obtain ⟨hnot, hout⟩ := h.trees.used hr hd hm
      exact hc.kept a (hout.off ha) (fun hfa => hnot (InPage.eq ha hfa ▸ hf)) fun hna => hnot (InPage.eq ha hna ▸ hn)
  obtain ⟨htrees, -, hupper, -⟩ := h.trees.created (.inl rfl) hroot hc
  have hold : ∀ {r v d}, AnyRoot kroot roots r → d ≤ 3 → hwTable s'.mem r v d ≠ some n := by
    intro r v d hr hd hm
    rw [htable hr hd] at hm
    exact (h.trees.used hr hd hm).1 hn
  have hkn : kroot ≠ n := fun e => hold (d := 0) (v := 0) (.inl rfl) (by omega) (congrArg some e)
  have hempty : ∀ {v d m}, v < 2 ^ 47 → hwTable s'.mem n v d = some m → d = 0 ∧ m = n := empty_lower hc.lower
  have hwalk : ∀ {p m}, Lower () p → walkTo s' n p = some m → p = [] ∧ m = n := by
    intro p m hp hw
    cases p with
    | nil =>
        cases hw
        exact ⟨rfl, rfl⟩
    | cons i p =>
        rw [walkTo, Radix.walk, hc.lower i (hp.2 i rfl)] at hw
        cases hw
  have hseen : ∀ {r p}, Looked kroot roots r p → walkTo s' r p ≠ some n := by
    intro r p hp hw
    obtain ⟨r', v, d, hr', hd, hm⟩ := hspaces.hwTable_of (n := n) ⟨r, p, hp, hw⟩
    exact hold hr' hd hm
  refine ⟨by rw [hroots]; exact htrees, ⟨hc.sound, hspaces.tables.placed, ⟨looked_closed, ?_⟩, ?_⟩, fun {r} hr => ?_,
    fun {r v} hr hv => ?_, fun {r i} hr hi => ?_, hspaces.present, fun {r v d m} hr hv hd hm => ?_,
    fun {r v v' d m} hr hv hv' hd hm => ?_⟩
  · intro r p r' p' m hp hp' hw hw'
    rcases looked_created.mp hp with hold₁ | ⟨rfl, hnew₁⟩
    · rcases looked_created.mp hp' with hold₂ | ⟨rfl, hnew₂⟩
      · exact hspaces.tables.forest.inj hold₁ hold₂ hw hw'
      · obtain ⟨-, rfl⟩ := hwalk hnew₂ hw'
        exact absurd hw (hseen hold₁)
    · obtain ⟨rfl, rfl⟩ := hwalk hnew₁ hw
      rcases looked_created.mp hp' with hold₂ | ⟨rfl, hnew₂⟩
      · exact absurd hw' (hseen hold₂)
      · exact ⟨rfl, (hwalk hnew₂ hw').1.symm⟩
  · rintro m ⟨r, p, hp, hw⟩
    rcases looked_created.mp hp with hold₁ | ⟨rfl, hnew₁⟩
    · exact hspaces.tables.used m ⟨r, p, hold₁, hw⟩
    · obtain ⟨-, rfl⟩ := hwalk hnew₁ hw
      have htop : hwTable s'.mem m 0 0 = some m := rfl
      exact htrees.used (.inr rfl) (by omega) htop
  · rw [hroots] at hr
    rcases hr with hr | rfl
    · exact hspaces.scratch hr
    · intro d hd m hm
      have hindex : 256 ≤ hwIndex 3 vmmScratchVa := by decide
      rcases Nat.eq_zero_or_pos d with rfl | hpos
      · cases hm
        rw [hupper _ hindex]
        exact hspaces.scratch (.inl rfl) 0 hd kroot rfl
      · rw [same_upper hupper hindex hpos] at hm
        exact hspaces.scratch (.inl rfl) d hd m hm
  · rcases hr with hr | rfl
    · exact hspaces.plain hr hv
    · intro d hd m hm
      obtain ⟨rfl, rfl⟩ := hempty hv hm
      have hindex : hwIndex 3 v < 256 := by
        simp only [hwIndex]
        omega
      rw [hc.lower _ hindex]
      exact fun hpres => absurd hpres (by decide)
  · rw [hroots] at hr
    rcases hr with hr | rfl
    · exact hspaces.shared hr hi
    · rw [hupper i hi]
  · rcases hr with hr | rfl
    · exact hspaces.usable hr hv hd hm
    · obtain ⟨-, rfl⟩ := hempty hv hm
      rw [Usable, hc.same.totalPages]
      exact h.usable_of_free hmap hn
  · rcases hr with hr | rfl
    · exact hspaces.own hr hv hv' hd hm
    · obtain ⟨rfl, rfl⟩ := hempty hv hm
      exact fun hk => hkn (Option.some.inj hk)

/-- A new space maps nothing. -/
theorem created_maps_nothing (hc : Created memmap kernel s f n s') {page : Nat} (hpage : page < 2 ^ 35) :
    translate s' n page = none := by
  have hindex : pml4Index (page * pageSize) < 256 := by
    simp only [pml4Index, pageSize]
    omega
  rw [translate, tablePath, List.cons_append, walkTo, Radix.walk, hc.lower _ hindex]
  rfl

end Created

/-! ### Spaces on fixed inputs -/

theorem bootMap_inRange : (0x10000 : UInt64).toNat + (0x10000 : UInt64).toNat ≤ 2 ^ 64 := by decide

/-- Sixteen usable pages from 64 KiB on. -/
def bootMap : List MemmapEntry := [⟨0x10000, 0x10000, .usable, bootMap_inRange⟩]

/-- Tables of a boot loader in pages 1 and 2: the second is for the upper addresses of the kernel. -/
def bootTables : Bytes := wr64 (fun _ => 0) (1 * pageSize + 8 * 511) 0x2003

/-- The allocator beside them. -/
def bootPmm : Pmm := pmmInit bootMap 0xFFFF800000000000 bootTables

/-- The kernel's space, with its PML4 in page 1. -/
def bootSpace : AddressSpace := ⟨0, 0x1000⟩

theorem bootMap_good : GoodMap bootMap := adoptedMap_good

theorem view_bootTables (n i : Nat) : view bootTables n i = if n = 1 ∧ i = 511 then 0x2003 else 0 := by
  have hzero : view (fun _ => 0) n i = 0 := view_zero (fun _ _ => rfl) i
  rw [bootTables, view_wr64 _ _ _ (by decide), Radix.set, hzero]
  rfl

section Booted

variable {memmap : List MemmapEntry} {s : Pmm}

/-- The allocator leaves the tables alone when its bitmap is above them. -/
theorem view_booted {placed : Pmm} {bitmap : UInt64} (hinit : s = Pmm.passes memmap (Pmm.place placed bitmap))
    (hmem : placed.mem = bootTables) (hsized : (placed.place bitmap).Sized) (hphys : 3 * pageSize ≤ (placed.place bitmap).bitmapPhys)
    {n : Nat} (hn : n ≤ 2) (i : Nat) : view s.mem n i = if n = 1 ∧ i = 511 then 0x2003 else 0 := by
  rw [← view_bootTables, hinit, ← hmem]
  refine view_congr (fun a ha => ?_) i
  have hlow : a < (placed.place bitmap).bitmapPhys := by
    simp only [pageSize] at ha hphys
    omega
  exact (Pmm.passes_off hsized (.inl hlow)).trans (Pmm.place_off hlow)

theorem booted_tables (hview : ∀ n ≤ 2, ∀ i, view s.mem n i = if n = 1 ∧ i = 511 then 0x2003 else 0) {v d m : Nat}
    (h : hwTable s.mem 1 v d = some m) : m = d + 1 ∧ d ≤ 1 := by
  match d, h with
  | 0, h =>
      cases h
      exact ⟨rfl, Nat.zero_le _⟩
  | d + 1, h =>
      have htop : hwTable s.mem 1 v 0 = some 1 := rfl
      have hone : ∀ m, hwTable s.mem 1 v 1 = some m → m = 2 := by
        intro m hm
        rw [hwTable_succ htop, hview 1 (by decide)] at hm
        split at hm
        · cases hm
          rfl
        · cases hm
      match d, h with
      | 0, h => exact ⟨hone m h, Nat.le_refl _⟩
      | d + 1, h =>
          obtain ⟨m₁, hm₁⟩ := Option.isSome_iff_exists.mp (hwTable_above (d := 1) (k := d + 2) (by rw [h]; rfl) (by omega))
          obtain ⟨m₂, hm₂⟩ := Option.isSome_iff_exists.mp (hwTable_above (d := 2) (k := d + 2) (by rw [h]; rfl) (by omega))
          rw [hwTable_succ hm₁, hone m₁ hm₁, hview 2 (by decide), if_neg (by omega)] at hm₂
          cases hm₂

/-- **The tables of the boot loader** beside an allocator that does not have their pages. -/
theorem booted_spaces (hsound : s.Sound memmap) (hb : s.bitmap ≠ 0) (hsmall : s.totalPages ≤ 2 ^ 40)
    (hview : ∀ n ≤ 2, ∀ i, view s.mem n i = if n = 1 ∧ i = 511 then 0x2003 else 0)
    (hpages : ∀ d < 2, d + 1 ∉ s.freePages ∧ s.Outside (d + 1)) : Spaces memmap 1 (fun _ => False) s := by
  refine .boot ⟨hsound, hb, hsmall, ?_, ?_⟩ (fun d hd m hm => ?_) ?_
  · rintro r r' v v' d d' m rfl rfl - - hm hm'
    have h₁ := booted_tables hview hm
    have h₂ := booted_tables hview hm'
    omega
  · rintro r v d m rfl - hm
    obtain ⟨rfl, hd⟩ := booted_tables hview hm
    exact hpages d (by omega)
  · obtain ⟨rfl, hd⟩ := booted_tables hview hm
    rw [hview _ (by omega)]
    split
    · next h =>
        obtain ⟨h, -⟩ := h
        obtain rfl : d = 0 := by omega
        exact fun _ => ⟨by decide, by decide⟩
    · exact fun h => absurd h (by decide)
  · rw [hview 1 (by decide)]
    decide

end Booted

theorem boot_spaces : Spaces bootMap 1 (fun _ => False) bootPmm := by
  have hb : bootPmm.bitmap ≠ 0 := by decide +kernel
  have hpages : ∀ d < 2, d + 1 ∉ bootPmm.freePages ∧ ((d + 1) * pageSize + pageSize ≤ bootPmm.bitmapPhys ∨
      bootPmm.bitmapPhys + bootPmm.bitmapSize ≤ (d + 1) * pageSize) := by decide +kernel
  have hinit : bootPmm = Pmm.passes bootMap (Pmm.place ⟨bootTables, 0xFFFF800000000000, 0, 4, 32, 0, 0x20000⟩
      (0x10000 + 0xFFFF800000000000)) := by rfl
  exact booted_spaces (pmmInit_sound bootMap_good hb) hb (by decide +kernel)
    (fun n hn i => view_booted hinit rfl ⟨by decide, by decide⟩ (by decide) hn i) hpages

/-- The first space over them. -/
def ownSpace : AddressSpace := ⟨0x11000, 0x12000⟩

def ownPmm : Pmm := ((vmmCreateAddressSpace bootSpace bootPmm).map Prod.snd).getD bootPmm

theorem own_created : Created bootMap bootSpace bootPmm 0x11 0x12 ownPmm := by
  have hspace : (vmmCreateAddressSpace bootSpace bootPmm).map Prod.fst = some (some ownSpace) := by decide +kernel
  rcases @vmmCreateAddressSpace_spec bootMap bootSpace bootPmm bootMap_good boot_spaces.trees.sound boot_spaces.trees.placed with
    ⟨s', hrun, -⟩ | ⟨f, n, s', hrun, hc⟩
  · rw [hrun] at hspace
    cases hspace
  · have hown : ownPmm = s' := by rw [ownPmm, hrun]; rfl
    rw [hrun] at hspace
    have hsame : (⟨f * pageSize, n * pageSize⟩ : AddressSpace) = ownSpace := Option.some.inj (Option.some.inj hspace)
    have hf : f * pageSize = 0x11000 := congrArg AddressSpace.frame hsame
    have hn : n * pageSize = 0x12000 := congrArg AddressSpace.pml4 hsame
    simp only [pageSize] at hf hn
    obtain rfl : f = 0x11 := by omega
    obtain rfl : n = 0x12 := by omega
    rw [hown]
    exact hc

theorem own_spaces : Spaces bootMap 1 (fun r => False ∨ r = 0x12) ownPmm :=
  boot_spaces.created bootMap_good rfl own_created

end Blackmount.Mem
