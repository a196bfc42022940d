import Blackmount.Mem.Trees
import Blackmount.Mem.UserCopy

/-!
# Mem — the tables of processes

The tables of the kernel and of the address spaces of processes in one memory, as far as the pages of processes
need them: the lower halves, and the way to the page at `VMM_SCRATCH_VA` in the kernel's half.

* `Spaces`: the tables of the lower halves are each space's own, those of the kernel's half are shared.
* `Apart`: a page that is in use, and no table.
* `Moved`: what an operation on pages leaves alone, and the translations after it.
* `Spaces.map`, `Spaces.unmap`, `Spaces.alloc`, `Moved.release`, `Moved.store`: the operations.
-/

namespace Blackmount.Mem
open Blackmount.Lib

/-! ### The tables -/

section Spaces

variable (memmap : List MemmapEntry) (kroot : Nat) (roots : Nat → Prop)

/-- The PML4s: the kernel's, and those of the spaces. -/
def AnyRoot (r : Nat) : Prop := r = kroot ∨ roots r

/-- The paths to the scratch page under the kernel's PML4, and through the lower halves of the spaces. -/
def Looked (r : Nat) (p : List Nat) : Prop :=
  r = kroot ∧ p <+: tablePath vmmScratchVa ∨ roots r ∧ Lower () p

/-- The scratch page of the kernel, and the pages of the lower halves. -/
def Site (r page : Nat) : Prop := r = kroot ∧ page = vmmScratchVa / pageSize ∨ roots r ∧ page < 2 ^ 35

/-- A page the allocator may hand out. -/
def Usable (s : Pmm) (p : Nat) : Prop := p ≠ 0 ∧ p < s.totalPages ∧ UsablePage memmap p

/-- The tables of the kernel and of the spaces, which share the kernel's half. -/
structure Spaces (s : Pmm) : Prop where
  trees : Trees memmap (AnyRoot kroot roots) s
  tables : Tables memmap id (Looked kroot roots) s
  scratch : ∀ {r}, AnyRoot kroot roots r → PlainTables s.mem r vmmScratchVa
  plain : ∀ {r v}, roots r → v < 2 ^ 47 → PlainTables s.mem r v
  shared : ∀ {r i}, AnyRoot kroot roots r → 256 ≤ i → hwNext 3 (view s.mem r i) = hwNext 3 (view s.mem kroot i)
  present : hwNext 3 (view s.mem kroot 511) ≠ none
  usable : ∀ {r v d m}, roots r → v < 2 ^ 47 → d ≤ 3 → hwTable s.mem r v d = some m → Usable memmap s m
  /-- The tables of the lower halves are none of the kernel's half. -/
  own : ∀ {r v v' d m}, roots r → v < 2 ^ 47 → 256 ≤ hwIndex 3 v' → d ≤ 3 → hwTable s.mem r v d = some m →
    hwTable s.mem kroot v' d ≠ some m

/-- A page that is in use, and neither a table nor the allocator's. -/
structure Apart (s : Pmm) (f : Nat) : Prop where
  ne_zero : f ≠ 0
  lt : f < s.totalPages
  used : f ∉ s.freePages
  outside : s.Outside f
  noTable : ∀ {r v d}, AnyRoot kroot roots r → d ≤ 3 → hwTable s.mem r v d ≠ some f

/-- Tables were added from free pages; pages that are apart stay so, with their bytes.  The translations are `T`. -/
structure Moved (T : Nat → Nat → Option Nat) (s s' : Pmm) : Prop where
  spaces : Spaces memmap kroot roots s'
  same : Pmm.Same s s'
  free : s'.freePages ⊆ s.freePages
  apart : ∀ {f}, Apart kroot roots s f → Apart kroot roots s' f
  bytes : ∀ {f}, Apart kroot roots s f → ∀ {a}, InPage f a → s'.mem a = s.mem a
  trans : ∀ {r page}, Site kroot roots r page → translate s' r page = T r page

end Spaces

section Moves

variable {memmap : List MemmapEntry} {kroot : Nat} {roots : Nat → Prop} {s s' s'' : Pmm} {T T' : Nat → Nat → Option Nat}

theorem Moved.refl (h : Spaces memmap kroot roots s) : Moved memmap kroot roots (translate s) s s :=
  ⟨h, .refl s, Finset.Subset.refl _, fun hf => hf, fun _ _ _ => rfl, fun _ => rfl⟩

theorem Moved.trans' (h : Moved memmap kroot roots T s s') (h' : Moved memmap kroot roots T' s' s'') :
    Moved memmap kroot roots T' s s'' :=
  ⟨h'.spaces, h.same.trans h'.same, h'.free.trans h.free, fun hf => h'.apart (h.apart hf),
    fun hf _ ha => (h'.bytes (h.apart hf) ha).trans (h.bytes hf ha), h'.trans⟩

theorem Moved.congr (h : Moved memmap kroot roots T s s')
    (hT : ∀ {r page}, Site kroot roots r page → T r page = T' r page) : Moved memmap kroot roots T' s s' :=
  ⟨h.spaces, h.same, h.free, h.apart, h.bytes, fun hs => (h.trans hs).trans (hT hs)⟩

theorem Spaces.kernel_ne (h : Spaces memmap kroot roots s) : ¬ roots kroot := by
  intro hk
  have htop : hwTable s.mem kroot 0 0 = some kroot := rfl
  have hupper : 256 ≤ hwIndex 3 vmmScratchVa := by decide
  exact h.own hk (by decide) hupper (by omega) htop rfl

/-- Free pages are usable. -/
theorem Spaces.usable_of_free (hmap : GoodMap memmap) (h : Spaces memmap kroot roots s) {p : Nat} (hp : p ∈ s.freePages) :
    Usable memmap s p := by
  obtain ⟨husable, -⟩ := h.trees.sound.free p hp
  refine ⟨fun e => hmap.nonzero (e ▸ husable), ((Pmm.mem_freePages h.trees.placed).mp hp).1, husable⟩

/-! ### Sites -/

theorem looked_closed {r : Nat} {p : List Nat} {i : Nat} (h : Looked kroot roots r (p ++ [i])) :
    Looked kroot roots r p := by
  rcases h with ⟨rfl, hp⟩ | ⟨hr, hp⟩
  · exact .inl ⟨rfl, (List.prefix_append p [i]).trans hp⟩
  · exact .inr ⟨hr, lower_closed hp⟩

/-- The site of an address. -/
theorem covers_site {r v : Nat} (h : Site kroot roots r (v / pageSize)) : Covers (Looked kroot roots) r v := by
  have hlong : ¬ Looked kroot roots r (tablePath v ++ [ptIndex v]) := by
    rintro (⟨-, hp⟩ | ⟨-, hp⟩)
    · have := hp.length_le
      simp [tablePath] at this
    · simp [Lower, tablePath] at hp
  rcases h with ⟨rfl, hv⟩ | ⟨hr, hv⟩
  · have hpath : tablePath v = tablePath vmmScratchVa := by
      rw [← (path_page v).1, hv, (path_page vmmScratchVa).1]
    refine ⟨?_, hlong⟩
    have hpre : ∀ p, p <+: tablePath v → Looked r roots r p := fun p hp => .inl ⟨rfl, hpath ▸ hp⟩
    refine ⟨hpre _ List.nil_prefix, hpre _ ⟨[pdptIndex v, pdIndex v], rfl⟩, hpre _ ⟨[pdIndex v], rfl⟩,
      hpre _ List.prefix_rfl⟩
  · have hlow : v < 2 ^ 47 := by
      simp only [pageSize] at hv
      omega
    obtain ⟨⟨h₀, h₁, h₂, h₃⟩, -⟩ := covers_lower hlow
    exact ⟨⟨.inr ⟨hr, h₀⟩, .inr ⟨hr, h₁⟩, .inr ⟨hr, h₂⟩, .inr ⟨hr, h₃⟩⟩, hlong⟩

/-- Pages at sites of one root have paths of their own. -/
theorem site_inj {r page page' : Nat} (hk : ¬ roots kroot) (h : Site kroot roots r page) (h' : Site kroot roots r page')
    (hp : tablePath (page * pageSize) = tablePath (page' * pageSize))
    (hi : ptIndex (page * pageSize) = ptIndex (page' * pageSize)) : page = page' := by
  rcases h with ⟨rfl, rfl⟩ | ⟨hr, hv⟩
  · rcases h' with ⟨-, rfl⟩ | ⟨hr, -⟩
    · rfl
    · exact absurd hr hk
  · rcases h' with ⟨rfl, -⟩ | ⟨-, hv'⟩
    · exact absurd hr hk
    · exact path_inj (by omega) (by omega) hp hi

/-! ### `vmm_map` and `vmm_unmap` -/

/-- The addresses at which pages of processes are mapped. -/
def At (kroot : Nat) (roots : Nat → Prop) (r v : Nat) : Prop := r = kroot ∧ v = vmmScratchVa ∨ roots r ∧ v < 2 ^ 47

/-- The entries of the PML4s that may come to lead to a table. -/
def LowerEntry (_ i : Nat) : Prop := i < 256

section At

variable {r v : Nat}

theorem At.site (h : At kroot roots r v) : Site kroot roots r (v / pageSize) := by
  rcases h with ⟨rfl, rfl⟩ | ⟨hr, hv⟩
  · exact .inl ⟨rfl, rfl⟩
  · refine .inr ⟨hr, ?_⟩
    simp only [pageSize]
    omega

theorem At.root (h : At kroot roots r v) : AnyRoot kroot roots r := by
  rcases h with ⟨rfl, -⟩ | ⟨hr, -⟩
  · exact .inl rfl
  · exact .inr hr

theorem Spaces.plainAt (h : Spaces memmap kroot roots s) (hat : At kroot roots r v) : PlainTables s.mem r v := by
  rcases hat with ⟨rfl, rfl⟩ | ⟨hr, hv⟩
  · exact h.scratch (.inl rfl)
  · exact h.plain hr hv

theorem Spaces.lowerEntry (h : Spaces memmap kroot roots s) (hat : At kroot roots r v)
    (hnone : hwNext 3 (view s.mem r (hwIndex 3 v)) = none) : LowerEntry r (hwIndex 3 v) := by
  rcases hat with ⟨rfl, rfl⟩ | ⟨hr, hv⟩
  · exact absurd hnone h.present
  · simp only [LowerEntry, hwIndex]
    omega

/-- Walks that share no table with the one that was written to are as they were. -/
theorem Spaces.walk_kept (h : Spaces memmap kroot roots s) (hr : AnyRoot kroot roots r)
    (hdeep : Deeper memmap (AnyRoot kroot roots) LowerEntry s s') (honly : OnlyTables r v s s') {r₁ v₁ : Nat}
    (hr₁ : AnyRoot kroot roots r₁) (hoff : ∀ {d m}, d ≤ 3 → hwTable s.mem r₁ v₁ d = some m → hwTable s.mem r v d ≠ some m)
    {d : Nat} (hd : d ≤ 3) : hwTable s'.mem r₁ v₁ d = hwTable s.mem r₁ v₁ d := by
  refine hwTable_congr (fun d hd m hm => ?_) hd
  obtain ⟨hused, hout⟩ := h.trees.used hr₁ (by omega) hm
  have hsame : ∀ a, InPage m a → s'.mem a = s.mem a := by
    intro a ha
    by_contra hne
    obtain ⟨e, he, m', hm', hin⟩ := honly a hne (hout.off ha)
    obtain rfl := InPage.eq hin ha
    have hm' : hwTable s.mem r v e = some m' := by
      rcases hm' with hm' | hm'
      · exact hm'
      · exact (hdeep.fresh hr he hm').resolve_right hused
    obtain rfl := h.trees.typed hr₁ hr (by omega) he hm hm'
    exact hoff (by omega) hm hm'
  rw [view_congr hsame]

/-- The tables of the lower halves stay none of the kernel's half. -/
theorem Spaces.own_moved (h : Spaces memmap kroot roots s) (hat : At kroot roots r v)
    (hdeep : Deeper memmap (AnyRoot kroot roots) LowerEntry s s') (honly : OnlyTables r v s s') {r₁ v₁ v₂ d m : Nat}
    (hr₁ : roots r₁) (hv₁ : v₁ < 2 ^ 47) (hv₂ : 256 ≤ hwIndex 3 v₂) (hd : d ≤ 3) (hm : hwTable s'.mem r₁ v₁ d = some m) :
    hwTable s'.mem kroot v₂ d ≠ some m := by
  intro hm'
  have hkept : ∀ {q w : Nat}, AnyRoot kroot roots q →
      (∀ {d m}, d ≤ 3 → hwTable s.mem q w d = some m → hwTable s.mem r v d ≠ some m) →
      hwTable s'.mem q w d = hwTable s.mem q w d :=
    fun hq hoff => h.walk_kept hat.root hdeep honly hq hoff hd
  -- one of the two walks is off the one written to; its tables were in use, so the other's was no free page
  rcases hat with ⟨rfl, rfl⟩ | ⟨hr, hv⟩
  · rw [hkept (.inr hr₁) fun hd hm => h.own hr₁ hv₁ (by decide) hd hm] at hm
    rcases hdeep.fresh (.inl rfl) hd hm' with hm' | hfree
    · exact h.own hr₁ hv₁ hv₂ hd hm hm'
    · exact (h.trees.used (.inr hr₁) hd hm).1 hfree
  · rw [hkept (.inl rfl) fun hd hm hm' => h.own hr hv hv₂ hd hm' hm] at hm'
    rcases hdeep.fresh (.inr hr₁) hd hm with hm | hfree
    · exact h.own hr₁ hv₁ hv₂ hd hm hm'
    · exact (h.trees.used (.inl rfl) hd hm').1 hfree

/-- What is written to tables only moves no page that is apart. -/
theorem Spaces.moved (hmap : GoodMap memmap) (h : Spaces memmap kroot roots s) (hat : At kroot roots r v)
    (hdeep : Deeper memmap (AnyRoot kroot roots) LowerEntry s s') (honly : OnlyTables r v s s')
    (htables : Tables memmap id (Looked kroot roots) s')
    (hT : ∀ {r page}, Site kroot roots r page → translate s' r page = T r page) : Moved memmap kroot roots T s s' := by
  have htop : ∀ {r i}, AnyRoot kroot roots r → 256 ≤ i → hwNext 3 (view s'.mem r i) = hwNext 3 (view s.mem r i) :=
    fun hr hi => (hdeep.top hr).resolve_right (Nat.not_lt.mpr hi)
  have hfresh : ∀ {f}, Apart kroot roots s f → ∀ {r v d}, AnyRoot kroot roots r → d ≤ 3 →
      hwTable s'.mem r v d ≠ some f := by
    intro f hf r v d hr hd hm
    rcases hdeep.fresh hr hd hm with hm | hm
    · exact hf.noTable hr hd hm
    · exact hf.used hm
  refine ⟨⟨hdeep.trees, htables, fun hr => hdeep.plain hr (h.scratch hr), fun hr hv => hdeep.plain (.inr hr) (h.plain hr hv),
    fun hr hi => ?_, ?_, fun hr hv hd hm => ?_, h.own_moved hat hdeep honly⟩, hdeep.same, hdeep.free, fun hf => ?_,
    fun {f} hf {a} ha => ?_, hT⟩
  · rw [htop hr hi, htop (.inl rfl) hi, h.shared hr hi]
  · rw [htop (.inl rfl) (by omega)]
    exact h.present
  · rw [Usable, hdeep.same.totalPages]
    rcases hdeep.fresh (.inr hr) hd hm with hm | hfree
    · exact h.usable hr hv hd hm
    · exact h.usable_of_free hmap hfree
  · exact ⟨hf.ne_zero, by rw [hdeep.same.totalPages]; exact hf.lt, fun hin => hf.used (hdeep.free hin),
      hdeep.same.outside.mpr hf.outside, hfresh hf⟩
  · by_contra hne
    obtain ⟨d, hd, m, hm, hin⟩ := honly a hne (hf.outside.off ha)
    obtain rfl := InPage.eq hin ha
    rcases hm with hm | hm
    · exact hf.noTable hat.root hd hm
    · exact hfresh hf hat.root hd hm

variable {space : AddressSpace}

/-- The translations with one page mapped to `x`. -/
def remapped (s : Pmm) (r page : Nat) (x : Option Nat) (r' page' : Nat) : Option Nat :=
  if r' = r ∧ page' = page then x else translate s r' page'

theorem remaps_remapped {k : Nat} {x : Option Nat} (hk : ¬ roots kroot) (hat : At kroot roots r v)
    (h : Remaps memmap id (Looked kroot roots) k r (tablePath v) (ptIndex v) x s s') {r' page' : Nat}
    (hs : Site kroot roots r' page') : translate s' r' page' = remapped s r (v / pageSize) x r' page' := by
  rw [remapped]
  split
  · next e =>
      obtain ⟨rfl, rfl⟩ := e
      rw [← walkTo_page]
      exact h.here
  · next hne =>
      have hpage : page' * pageSize / pageSize = page' := Nat.mul_div_cancel _ (by decide)
      have hc := covers_site (v := page' * pageSize) (hpage.symm ▸ hs)
      refine h.last hc.tables.2.2.2 hc.page fun hsame => hne ?_
      obtain ⟨rfl, h₁, h₂⟩ := hsame
      rw [← (path_page v).1] at h₁
      rw [← (path_page v).2] at h₂
      exact ⟨rfl, site_inj hk hs hat.site h₁ h₂⟩

theorem grown_unmoved {k : Nat} (h : Grown memmap id (Looked kroot roots) k s s') {r' page' : Nat}
    (hs : Site kroot roots r' page') : translate s' r' page' = translate s r' page' := by
  have hpage : page' * pageSize / pageSize = page' := Nat.mul_div_cancel _ (by decide)
  have hc := covers_site (v := page' * pageSize) (hpage.symm ▸ hs)
  exact h.last hc.tables.2.2.2 hc.page

/-- **`vmm_map`** maps the page, or fails for want of a page and changes no translation. -/
theorem Spaces.map (hmap : GoodMap memmap) (h : Spaces memmap kroot roots s) (hat : At kroot roots r v)
    (hroot : space.pml4 = r * pageSize) {phys flags : Nat} (hphys : phys < 2 ^ 64) (hflags : flags < pageSize) :
    (∃ s', vmmMap space v phys flags s = some (false, s') ∧ Moved memmap kroot roots (translate s) s s') ∨
      ∃ s', vmmMap space v phys flags s = some (true, s') ∧
        Moved memmap kroot roots (remapped s r (v / pageSize) (some (phys / pageSize))) s s' := by
  have hplain := h.plainAt hat
  obtain ⟨b, s₁, hrun, hdeep⟩ := h.trees.map hmap hat.root hplain (h.lowerEntry hat) hroot phys flags
  obtain ⟨b', s₂, hrun', honly⟩ := vmmMap_onlyTables hmap
    (.start h.trees.sound hplain fun d hd m hm => h.trees.used hat.root hd hm) h.trees.small h.trees.placed hroot phys flags
  rw [hrun] at hrun'
  cases hrun'
  rcases vmmMap_spec hmap h.tables (covers_site hat.site) hroot hphys hflags with
    ⟨s₂, hrun', hg, -⟩ | ⟨s₂, hrun', hremap⟩
  · rw [hrun] at hrun'
    cases hrun'
    exact .inl ⟨s₁, hrun, h.moved hmap hat hdeep honly hg.tables (grown_unmoved hg)⟩
  · rw [hrun] at hrun'
    cases hrun'
    exact .inr ⟨s₁, hrun, h.moved hmap hat hdeep honly hremap.tables (remaps_remapped h.kernel_ne hat hremap)⟩

/-- **`vmm_unmap`** takes the page's translation away. -/
theorem Spaces.unmap (hmap : GoodMap memmap) (h : Spaces memmap kroot roots s) (hat : At kroot roots r v)
    (hroot : space.pml4 = r * pageSize) :
    ∃ s', vmmUnmap space v s = some ((), s') ∧ Moved memmap kroot roots (remapped s r (v / pageSize) none) s s' := by
  have hplain := h.plainAt hat
  obtain ⟨s₁, hrun, hdeep⟩ := h.trees.unmap (X := LowerEntry) hat.root hplain hroot
  obtain ⟨s₂, hrun', honly⟩ := vmmUnmap_onlyTables hplain hroot
  rw [hrun] at hrun'
  cases hrun'
  obtain ⟨s₂, hrun', hremap⟩ := vmmUnmap_spec h.tables (covers_site hat.site) hroot
  rw [hrun] at hrun'
  cases hrun'
  exact ⟨s₁, hrun, h.moved hmap hat hdeep honly hremap.tables (remaps_remapped h.kernel_ne hat hremap)⟩

end At

/-! ### Memory that is no table -/

/-- A table on a walk of the processor. -/
def HwTable (kroot : Nat) (roots : Nat → Prop) (s : Pmm) (m : Nat) : Prop :=
  ∃ r v d, AnyRoot kroot roots r ∧ d ≤ 3 ∧ hwTable s.mem r v d = some m

theorem view_of_walk {n i : Nat} {q : List Nat} {m : Nat} (h : walkTo s n (i :: q) = some m) : i < 512 := by
  by_contra hi
  rw [walkTo, Radix.walk, view, if_neg hi] at h
  cases h

/-- An address whose walk begins with certain indices. -/
theorem exists_path {n m : Nat} {q : List Nat} (hq : Lower () q) (h : walkTo s n q = some m) :
    ∃ v d, v < 2 ^ 47 ∧ d ≤ 3 ∧ (tablePath v).take d = q := by
  obtain ⟨hlen, hhead⟩ := hq
  match q, hlen, hhead, h with
  | [], _, _, _ => exact ⟨0, 0, by decide, by omega, rfl⟩
  | [i], _, hhead, _ =>
      have hi := hhead i rfl
      refine ⟨i * 2 ^ 39, 1, by omega, by omega, ?_⟩
      simp only [tablePath, pml4Index, List.take_succ_cons, List.take_zero, List.cons.injEq, and_true]
      omega
  | [i, j], _, hhead, h =>
      have hi := hhead i rfl
      have hj : j < 512 := by
        rw [walkTo, Radix.walk] at h
        obtain ⟨c, -, hc⟩ := Option.bind_eq_some_iff.mp h
        exact view_of_walk hc
      refine ⟨i * 2 ^ 39 + j * 2 ^ 30, 2, by omega, by omega, ?_⟩
      simp only [tablePath, pml4Index, pdptIndex, List.take_succ_cons, List.take_zero, List.cons.injEq, and_true]
      omega
  | [i, j, l], _, hhead, h =>
      have hi := hhead i rfl
      rw [walkTo, Radix.walk] at h
      obtain ⟨c, -, hc⟩ := Option.bind_eq_some_iff.mp h
      have hj : j < 512 := view_of_walk hc
      rw [Radix.walk] at hc
      obtain ⟨c', -, hc'⟩ := Option.bind_eq_some_iff.mp hc
      have hl : l < 512 := view_of_walk hc'
      refine ⟨i * 2 ^ 39 + j * 2 ^ 30 + l * 2 ^ 21, 3, by omega, by omega, ?_⟩
      simp only [tablePath, pml4Index, pdptIndex, pdIndex, List.take_succ_cons, List.take_zero, List.cons.injEq, and_true]
      omega

/-- The tables of `vmm.c` are tables of the processor. -/
theorem Spaces.hwTable_of (h : Spaces memmap kroot roots s) {n : Nat} (hn : IsTable s id (Looked kroot roots) n) :
    HwTable kroot roots s n := by
  obtain ⟨r, q, hq, hw⟩ := hn
  rcases hq with ⟨rfl, hq⟩ | ⟨hr, hq⟩
  · have hlen := hq.length_le
    refine ⟨r, vmmScratchVa, q.length, .inl rfl, hlen, ?_⟩
    rw [hwTable_plain s (h.scratch (.inl rfl)) hlen, ← List.prefix_iff_eq_take.mp hq]
    exact hw
  · obtain ⟨v, d, hv, hd, rfl⟩ := exists_path hq hw
    refine ⟨r, v, d, .inr hr, hd, ?_⟩
    rw [hwTable_plain s (h.plain hr hv) hd]
    exact hw

/-- What is done to pages that are no tables does not matter. -/
theorem Spaces.aside (h : Spaces memmap kroot roots s) (hsound : s'.Sound memmap) (hsame : Pmm.Same s s')
    (hfree : ∀ {m}, HwTable kroot roots s m → m ∉ s'.freePages)
    (hmem : ∀ {m}, HwTable kroot roots s m → ∀ a, InPage m a → s'.mem a = s.mem a) :
    Spaces memmap kroot roots s' ∧
      (∀ {r v d}, AnyRoot kroot roots r → d ≤ 3 → hwTable s'.mem r v d = hwTable s.mem r v d) ∧
      ∀ {r page}, Site kroot roots r page → translate s' r page = translate s r page := by
  obtain ⟨htrees, htable, hview⟩ := h.trees.aside hsound hsame (fun {r v d m} hr hd hm => hfree ⟨r, v, d, hr, hd, hm⟩)
    fun {r v d m} hr hd hm => hmem ⟨r, v, d, hr, hd, hm⟩
  have hseen : ∀ n, IsTable s id (Looked kroot roots) n → ∀ i, view s'.mem n i = view s.mem n i := by
    intro n hn i
    obtain ⟨r, v, d, hr, hd, hm⟩ := h.hwTable_of hn
    exact hview hr hd hm i
  obtain ⟨htables, -, hlast⟩ := h.tables.aside hsound hsame (fun n hn => hfree (h.hwTable_of hn)) hseen
  have hplain : ∀ {r v}, AnyRoot kroot roots r → PlainTables s.mem r v → PlainTables s'.mem r v := by
    intro r v hr hp d hd m hm
    have hm : hwTable s'.mem r v d = some m := hm
    rw [htable hr (by omega)] at hm
    rw [hview hr (by omega) hm]
    exact hp d hd m hm
  have hroot : ∀ {r}, AnyRoot kroot roots r → ∀ i, view s'.mem r i = view s.mem r i := by
    intro r hr
    have htop : hwTable s.mem r 0 0 = some r := rfl
    exact hview hr (by omega) htop
  refine ⟨⟨htrees, htables, fun hr => hplain hr (h.scratch hr), fun hr hv => hplain (.inr hr) (h.plain hr hv),
    fun hr hi => ?_, ?_, fun hr hv hd hm => ?_, fun hr hv hv' hd hm => ?_⟩, htable, fun {r page} hs => ?_⟩
  · rw [hroot hr, hroot (.inl rfl)]
    exact h.shared hr hi
  · rw [hroot (.inl rfl)]
    exact h.present
  · rw [htable (.inr hr) hd] at hm
    rw [Usable, hsame.totalPages]
    exact h.usable hr hv hd hm
  · rw [htable (.inr hr) hd] at hm
    rw [htable (.inl rfl) hd]
    exact h.own hr hv hv' hd hm
  · have hpage : page * pageSize / pageSize = page := Nat.mul_div_cancel _ (by decide)
    have hc := covers_site (v := page * pageSize) (hpage.symm ▸ hs)
    exact hlast hc.tables.2.2.2

/-- **`pmm_alloc`** takes a page that was free; it is apart then. -/
theorem Spaces.alloc (hmap : GoodMap memmap) (h : Spaces memmap kroot roots s) :
    allocFrame s = some (0, s) ∨ ∃ p s₁, allocFrame s = some (pageAddr p, s₁) ∧ p ∈ s.freePages ∧
      (pageAddr p).toNat = p * pageSize ∧ pageAddr p ≠ 0 ∧ Moved memmap kroot roots (translate s) s s₁ ∧
      Apart kroot roots s₁ p := by
  rcases h.trees.sound.alloc hmap h.trees.placed with
    ⟨hrun, -⟩ | ⟨p, s₁, hrun, hp, hp0, haddr, hsound, hsame, hset, -, hmem⟩
  · exact .inl hrun
  · right
    have hother : ∀ {f}, f ∉ s.freePages → s.Outside f → ∀ {a}, InPage f a → s₁.mem a = s.mem a := by
      intro f hf hout a ha
      refine hmem a (fun hpa => hf ?_) (hout.off ha)
      rw [InPage.eq ha hpa]
      exact hp
    have hsub : s₁.freePages ⊆ s.freePages := hset ▸ Finset.erase_subset _ _
    obtain ⟨hspaces, htable, htrans⟩ := h.aside hsound hsame
      (fun ⟨_, _, _, hr, hd, hm⟩ hin => (h.trees.used hr hd hm).1 (hsub hin))
      fun ⟨_, _, _, hr, hd, hm⟩ a ha => hother (h.trees.used hr hd hm).1 (h.trees.used hr hd hm).2 ha
    refine ⟨p, s₁, hrun, hp, haddr, pageAddr_ne hp0 haddr, ⟨hspaces, hsame, hsub, fun hf => ?_,
      fun hf _ ha => hother hf.used hf.outside ha, htrans⟩, ?_⟩
    · refine ⟨hf.ne_zero, by rw [hsame.totalPages]; exact hf.lt, fun hin => hf.used (hsub hin),
        hsame.outside.mpr hf.outside, fun hr hd => ?_⟩
      rw [htable hr hd]
      exact hf.noTable hr hd
    · refine ⟨hp0, ?_, ?_, hsame.outside.mpr (h.trees.sound.free p hp).2, fun hr hd hm => ?_⟩
      · rw [hsame.totalPages]
        exact ((Pmm.mem_freePages h.trees.placed).mp hp).1
      · rw [hset]
        exact Finset.notMem_erase _ _
      · rw [htable hr hd] at hm
        exact (h.trees.used hr hd hm).1 hp

/-- A page that was taken is given back. -/
theorem Moved.release (h : Moved memmap kroot roots T s s') (hs : Spaces memmap kroot roots s) {p : Nat}
    (hp : p ∈ s.freePages) (hapart : Apart kroot roots s' p) (haddr : (pageAddr p).toNat = p * pageSize) :
    ∃ s'', freeFrame (pageAddr p) s' = some ((), s'') ∧ Moved memmap kroot roots T s s'' := by
  have h52 : p < 2 ^ 52 := Nat.lt_of_lt_of_le hapart.lt (Nat.le_trans h.spaces.trees.small (by decide))
  have husable := (hs.trees.sound.free p hp).1
  obtain ⟨s'', hrun, hsound, hsame, hset, hmem⟩ := h.spaces.trees.sound.release h.spaces.trees.placed hapart.ne_zero h52
    (fun _ => ⟨husable, hapart.outside⟩) (show 0 < pageSize by decide)
  have hphys : UInt64.ofNat (p * pageSize + 0) = pageAddr p := by
    rw [Nat.add_zero, ← haddr]
    exact UInt64.ofNat_toNat
  rw [hphys] at hrun
  have hin : ∀ {f}, f ∈ s''.freePages → f = p ∨ f ∈ s'.freePages := by
    intro f hf
    rw [hset, if_pos hapart.lt] at hf
    exact Finset.mem_insert.mp hf
  obtain ⟨hspaces, htable, htrans⟩ := h.spaces.aside hsound hsame
    (fun ⟨_, _, _, hr, hd, hm⟩ hf => by
      rcases hin hf with rfl | hf
      · exact hapart.noTable hr hd hm
      · exact (h.spaces.trees.used hr hd hm).1 hf)
    fun ⟨_, _, _, hr, hd, hm⟩ a ha => hmem a ((h.spaces.trees.used hr hd hm).2.off ha)
  refine ⟨s'', by rw [freeFrame, hrun]; rfl, hspaces, h.same.trans hsame, fun f hf => ?_, fun {f} hf => ?_,
    fun {f} hf a ha => ?_, fun hsite => (htrans hsite).trans (h.trans hsite)⟩
  · rcases hin hf with rfl | hf
    · exact hp
    · exact h.free hf
  · have hf' := h.apart hf
    refine ⟨hf.ne_zero, by rw [hsame.totalPages]; exact hf'.lt, fun hfree => ?_, hsame.outside.mpr hf'.outside,
      fun hr hd => ?_⟩
    · rcases hin hfree with rfl | hfree
      · exact hf.used hp
      · exact hf'.used hfree
    · rw [htable hr hd]
      exact hf'.noTable hr hd
  · rw [hmem a ((h.apart hf).outside.off ha)]
    exact h.bytes hf ha

/-- The bytes of a page that was not apart before are written. -/
theorem Moved.store (h : Moved memmap kroot roots T s s') {p : Nat} (hapart : Apart kroot roots s' p)
    (hnew : ¬ Apart kroot roots s p) {mem : Bytes} (hmem : ∀ a, ¬ InPage p a → mem a = s'.mem a) :
    Moved memmap kroot roots T s { s' with mem := mem } ∧ Apart kroot roots { s' with mem := mem } p := by
  have hoff : ∀ a, ¬ s'.OffBitmap a → mem a = s'.mem a := fun a ha => hmem a fun hin => ha (hapart.outside.off hin)
  obtain ⟨hsound, hfree⟩ := h.spaces.trees.sound.write hoff
  obtain ⟨hspaces, htable, htrans⟩ := h.spaces.aside hsound ⟨rfl, rfl, rfl, rfl⟩
    (fun ⟨_, _, _, hr, hd, hm⟩ => by rw [hfree]; exact (h.spaces.trees.used hr hd hm).1)
    fun ⟨_, _, _, hr, hd, hm⟩ a ha => hmem a fun hin => hapart.noTable hr hd (InPage.eq ha hin ▸ hm)
  have hkept : ∀ {f}, Apart kroot roots s' f → Apart kroot roots { s' with mem := mem } f := fun hf =>
    ⟨hf.ne_zero, hf.lt, by rw [hfree]; exact hf.used, hf.outside, fun hr hd => by rw [htable hr hd]; exact hf.noTable hr hd⟩
  refine ⟨⟨hspaces, h.same.trans ⟨rfl, rfl, rfl, rfl⟩, by rw [hfree]; exact h.free, fun hf => hkept (h.apart hf),
    fun {f} hf a ha => ?_, fun hsite => (htrans hsite).trans (h.trans hsite)⟩, hkept hapart⟩
  rw [← h.bytes hf ha]
  exact hmem a fun hin => hnew (InPage.eq hin ha ▸ hf)

end Moves

end Blackmount.Mem
