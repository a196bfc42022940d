import Blackmount.Mem.Create

/-!
# Mem — an address space is a finite map

What `vmm.c` does to the lower half of one address space, seen as a map from pages to frames.

* `VmState`: the memory, the map that the operations say, and the frames `vmm_alloc_page` handed out.
* `page_tables_map`: after every step of every run the tables translate as the map says, when calls are
  for the lower half and `vmm_free_page` for such frames only.
* `mapping_lost`: otherwise a table can be freed and taken for something else, or written to as if it were
  another.
-/

namespace Blackmount.Mem
open Blackmount.Lib

/-! ### Pages and paths -/

/-- The frame that the tables under `n` give page `page`. -/
def translate (s : Pmm) (n page : Nat) : Option Nat :=
  walkTo s n (tablePath (page * pageSize) ++ [ptIndex (page * pageSize)])

theorem path_page (virt : Nat) : tablePath (virt / pageSize * pageSize) = tablePath virt ∧
    ptIndex (virt / pageSize * pageSize) = ptIndex virt :=
  ⟨tablePath_pageOf virt, (index_pageOf virt).2.2.2⟩

theorem walkTo_page (s : Pmm) (n virt : Nat) :
    walkTo s n (tablePath virt ++ [ptIndex virt]) = translate s n (virt / pageSize) := by
  rw [translate, (path_page virt).1, (path_page virt).2]

/-- The path of a page of the 48-bit address space is its own. -/
theorem path_inj {x y : Nat} (hx : x < 2 ^ 36) (hy : y < 2 ^ 36)
    (h : tablePath (x * pageSize) = tablePath (y * pageSize)) (h' : ptIndex (x * pageSize) = ptIndex (y * pageSize)) :
    x = y := by
  simp only [tablePath, List.cons.injEq, pml4Index, pdptIndex, pdIndex, ptIndex, pageSize, and_true] at h h'
  obtain ⟨h4, h3, h2⟩ := h
  omega

/-- The paths through the lower half, from the only root. -/
def Lower (_ : Unit) (p : List Nat) : Prop := p.length ≤ 3 ∧ ∀ i ∈ p.head?, i < 256

theorem lower_closed {r : Unit} {p : List Nat} {i : Nat} (h : Lower r (p ++ [i])) : Lower r p := by
  obtain ⟨hlen, hhead⟩ := h
  rw [List.length_append] at hlen
  refine ⟨by omega, fun j hj => hhead j ?_⟩
  rw [List.head?_append, hj]
  rfl

theorem covers_lower {virt : Nat} (h : virt < 2 ^ 47) : Covers Lower () virt := by
  have h4 : pml4Index virt < 256 := by
    simp only [pml4Index]
    omega
  have hhead : ∀ l, ∀ i ∈ (pml4Index virt :: l).head?, i < 256 := by
    intro l i hi
    cases hi
    exact h4
  exact ⟨⟨⟨by simp, by simp⟩, ⟨by simp, hhead _⟩, ⟨by simp, hhead _⟩, ⟨by simp [tablePath], hhead _⟩⟩,
    fun hS => by simp [Lower, tablePath] at hS⟩

section Space

variable {memmap : List MemmapEntry} {space : AddressSpace} {n : Nat} {s s' : Pmm}

/-- The tables of the lower half under `n`. -/
abbrev LowerTables (memmap : List MemmapEntry) (n : Nat) (s : Pmm) : Prop := Tables memmap (fun _ : Unit => n) Lower s

/-- A page of the lower half was mapped to `x`: the tables translate accordingly. -/
theorem Remaps.translate {k virt page : Nat} {x : Option Nat} (hvirt : virt < 2 ^ 47) (hpage : page < 2 ^ 35)
    (h : Remaps memmap (fun _ : Unit => n) Lower k () (tablePath virt) (ptIndex virt) x s s') :
    Mem.translate s' n page = if page = virt / pageSize then x else Mem.translate s n page := by
  split
  · next e =>
      rw [e, ← walkTo_page]
      exact h.here
  · next hne =>
      have hvp : page * pageSize < 2 ^ 47 := by
        simp only [pageSize]
        omega
      have hc := covers_lower hvp
      refine h.last hc.tables.2.2.2 hc.page fun hsame => hne ?_
      obtain ⟨-, h₁, h₂⟩ := hsame
      rw [← (path_page virt).1] at h₁
      rw [← (path_page virt).2] at h₂
      refine path_inj (by omega) ?_ h₁ h₂
      simp only [pageSize]
      omega

theorem Grown.translate {k page : Nat} (hpage : page < 2 ^ 35)
    (h : Grown memmap (fun _ : Unit => n) Lower k s s') : Mem.translate s' n page = Mem.translate s n page := by
  have hvp : page * pageSize < 2 ^ 47 := by
    simp only [pageSize]
    omega
  have hc := covers_lower hvp
  exact h.last hc.tables.2.2.2 hc.page

/-! ### Ranges -/

/-- What a call leaves of the tables and of the free pages. -/
structure Changed (memmap : List MemmapEntry) (n : Nat) (s s' : Pmm) : Prop where
  same : Pmm.Same s s'
  tables : LowerTables memmap n s'
  reached : ∀ x, IsTable s' (fun _ : Unit => n) Lower x → IsTable s (fun _ : Unit => n) Lower x ∨ x ∈ s.freePages
  free : s'.freePages ⊆ s.freePages

theorem Changed.refl (h : LowerTables memmap n s) : Changed memmap n s s :=
  ⟨.refl s, h, fun _ hx => .inl hx, Finset.Subset.refl _⟩

theorem Changed.trans {s'' : Pmm} (h : Changed memmap n s s') (h' : Changed memmap n s' s'') : Changed memmap n s s'' := by
  refine ⟨h.same.trans h'.same, h'.tables, fun x hx => ?_, h'.free.trans h.free⟩
  rcases h'.reached x hx with hx | hx
  · exact h.reached x hx
  · exact .inr (h.free hx)

theorem Remaps.changed {k i : Nat} {q : List Nat} {x : Option Nat}
    (h : Remaps memmap (fun _ : Unit => n) Lower k () q i x s s') : Changed memmap n s s' :=
  ⟨h.same, h.tables, h.reached, h.free⟩

/-- **`vmm_map_range`** with enough pages, from page `i` on. -/
theorem mapRangeFrom_spec (hmap : GoodMap memmap) (hroot : space.pml4 = n * pageSize) {virt phys flags : Nat}
    (hflags : flags < pageSize) : ∀ {pages i : Nat} {s : Pmm}, LowerTables memmap n s →
      virt + (i + pages) * pageSize ≤ 2 ^ 47 → phys + (i + pages) * pageSize ≤ 2 ^ 52 → 3 * pages ≤ s.freePages.card →
      ∃ s', mapRangeFrom space virt phys flags pages i s = some (true, s') ∧ Changed memmap n s s' ∧
        ∀ page, page < 2 ^ 35 → translate s' n page =
          if virt / pageSize + i ≤ page ∧ page < virt / pageSize + i + pages then
            some (phys / pageSize + (page - virt / pageSize))
          else translate s n page := by
  intro pages
  induction pages with
  | zero =>
      intro i s h _ _ _
      exact ⟨s, rfl, .refl h, fun page _ => by rw [if_neg (by omega)]⟩
  | succ pages ih =>
      intro i s h hv hp hroom
      simp only [pageSize] at hv hp
      have hvi : virt + i * pageSize < 2 ^ 47 := by
        simp only [pageSize]
        omega
      have hmodv : (virt + i * pageSize) % 2 ^ 64 = virt + i * pageSize := by
        simp only [pageSize]
        omega
      have hmodp : (phys + i * pageSize) % 2 ^ 64 = phys + i * pageSize := by
        simp only [pageSize]
        omega
      have hdivv : (virt + i * pageSize) / pageSize = virt / pageSize + i := Nat.add_mul_div_right _ _ (by decide)
      have hdivp : (phys + i * pageSize) / pageSize = phys / pageSize + i := Nat.add_mul_div_right _ _ (by decide)
      have hp64 : phys + i * pageSize < 2 ^ 64 := by
        simp only [pageSize]
        omega
      rcases vmmMap_spec hmap h (covers_lower hvi) hroot hp64 hflags with ⟨s₁, -, hg, hempty⟩ | ⟨s₁, hr, hm⟩
      · have := hg.count
        rw [hempty, Finset.card_empty] at this
        omega
      · have hcount := hm.count
        have hshift : i + (pages + 1) = i + 1 + pages := by omega
        rw [hshift] at hv hp
        obtain ⟨s', hr', hchanged, htr⟩ := ih hm.tables hv hp (by omega)
        refine ⟨s', ?_, hm.changed.trans hchanged, fun page hpage => ?_⟩
        · rw [mapRangeFrom, hmodv, hmodp, bind_run, hr]
          exact hr'
        · rw [htr page hpage, hm.translate hvi hpage, hdivv, hdivp]
          by_cases h₁ : page = virt / pageSize + i
          · rw [if_neg (by omega), if_pos h₁, if_pos (by omega)]
            congr 1
            omega
          · rw [if_neg h₁]
            by_cases h₂ : virt / pageSize + (i + 1) ≤ page ∧ page < virt / pageSize + (i + 1) + pages
            · rw [if_pos h₂, if_pos (by omega)]
            · rw [if_neg h₂, if_neg (by omega)]

/-- **`vmm_unmap_range`**. -/
theorem vmmUnmapRange_spec (hroot : space.pml4 = n * pageSize) : ∀ {pages virt : Nat} {s : Pmm},
    LowerTables memmap n s → virt + pages * pageSize ≤ 2 ^ 47 →
      ∃ s', vmmUnmapRange space virt pages s = some ((), s') ∧ Changed memmap n s s' ∧
        ∀ page, page < 2 ^ 35 → translate s' n page =
          if virt / pageSize ≤ page ∧ page < virt / pageSize + pages then none else translate s n page := by
  intro pages
  induction pages with
  | zero =>
      intro virt s h _
      exact ⟨s, rfl, .refl h, fun page _ => by rw [if_neg (by omega)]⟩
  | succ pages ih =>
      intro virt s h hv
      simp only [pageSize] at hv
      have hvirt : virt < 2 ^ 47 := by omega
      have hmod : (virt + pageSize) % 2 ^ 64 = virt + pageSize := by
        simp only [pageSize]
        omega
      have hdiv : (virt + pageSize) / pageSize = virt / pageSize + 1 := Nat.add_div_right _ (by decide)
      obtain ⟨s₁, hr, hm⟩ := vmmUnmap_spec h (covers_lower hvirt) hroot
      have hv' : virt + pageSize + pages * pageSize ≤ 2 ^ 47 := by
        simp only [pageSize]
        omega
      obtain ⟨s', hr', hchanged, htr⟩ := ih hm.tables hv'
      refine ⟨s', ?_, hm.changed.trans hchanged, fun page hpage => ?_⟩
      · rw [vmmUnmapRange, bind_run, hr, Option.bind_some, hmod]
        exact hr'
      · rw [htr page hpage, hm.translate hvirt hpage, hdiv]
        by_cases h₁ : page = virt / pageSize
        · rw [if_neg (by omega), if_pos h₁, if_pos (by omega)]
        · rw [if_neg h₁]
          by_cases h₂ : virt / pageSize + 1 ≤ page ∧ page < virt / pageSize + 1 + pages
          · rw [if_pos h₂, if_pos (by omega)]
          · rw [if_neg h₂, if_neg (by omega)]

end Space

/-! ### Runs -/

inductive VmOp where
  | map (virt phys flags : Nat)
  | mapRange (virt phys pages flags : Nat)
  | unmap (virt : Nat)
  | unmapRange (virt pages : Nat)
  | allocPage (virt flags : Nat)
  | freePage (virt : Nat)

/-- The memory, the physical address each page was mapped to, and the frames that `vmm_alloc_page` handed out
and `vmm_free_page` did not take back. -/
structure VmState where
  pmm : Pmm
  map : Nat → Option Nat := fun _ => none
  owned : Finset Nat := ∅

/-- The frame that `pmm_alloc` gives next. -/
def nextFrame (s : Pmm) : Nat := (pmmAlloc s).elim 0 fun r => r.1.toNat

/-- A call, with what it is meant to do to the map. -/
def vmStep (space : AddressSpace) (s : VmState) : VmOp → Option VmState
  | .map virt phys flags => (vmmMap space virt phys flags s.pmm).map fun r =>
      { s with pmm := r.2, map := if r.1 then Function.update s.map (virt / pageSize) (some phys) else s.map }
  | .mapRange virt phys pages flags => (vmmMapRange space virt phys pages flags s.pmm).map fun r =>
      { s with
        pmm := r.2
        map := fun page =>
          if r.1 ∧ virt / pageSize ≤ page ∧ page < virt / pageSize + pages then
            some (phys + (page - virt / pageSize) * pageSize)
          else s.map page }
  | .unmap virt => (vmmUnmap space virt s.pmm).map fun r =>
      { s with pmm := r.2, map := Function.update s.map (virt / pageSize) none }
  | .unmapRange virt pages => (vmmUnmapRange space virt pages s.pmm).map fun r =>
      { s with
        pmm := r.2
        map := fun page => if virt / pageSize ≤ page ∧ page < virt / pageSize + pages then none else s.map page }
  | .allocPage virt flags => (vmmAllocPage space virt flags s.pmm).map fun r =>
      { pmm := r.2
        map := Function.update s.map (virt / pageSize) (some (nextFrame s.pmm))
        owned := insert (nextFrame s.pmm / pageSize) s.owned }
  | .freePage virt => (vmmFreePage space virt s.pmm).map fun r =>
      { pmm := r.2
        map := Function.update s.map (virt / pageSize) none
        owned := (s.map (virt / pageSize)).elim s.owned fun p => s.owned.erase (p / pageSize) }

/-- A page-aligned physical address below 2^52 that is not 0. -/
def GoodPhys (phys : Nat) : Prop := phys % pageSize = 0 ∧ phys ≠ 0 ∧ phys < 2 ^ 52

/-- Good physical addresses, the low flags, and enough free pages. -/
def VmUse (s : VmState) : VmOp → Prop
  | .map _ phys flags => GoodPhys phys ∧ flags < 2 ^ 9 ∧ 3 ≤ s.pmm.freePages.card
  | .mapRange _ phys pages flags => GoodPhys phys ∧ phys + pages * pageSize ≤ 2 ^ 52 ∧ flags < 2 ^ 9 ∧
      3 * pages ≤ s.pmm.freePages.card
  | .allocPage _ flags => flags < 2 ^ 9 ∧ 4 ≤ s.pmm.freePages.card
  | _ => True

/-- The calls are for pages of the lower half, and `vmm_free_page` for pages mapped to frames that
`vmm_alloc_page` handed out. -/
def VmSafe (s : VmState) : VmOp → Prop
  | .map virt _ _ => virt < 2 ^ 47
  | .mapRange virt _ pages _ => virt + pages * pageSize ≤ 2 ^ 47
  | .unmap virt => virt < 2 ^ 47
  | .unmapRange virt pages => virt + pages * pageSize ≤ 2 ^ 47
  | .allocPage virt _ => virt < 2 ^ 47
  | .freePage virt => virt < 2 ^ 47 ∧ ∀ p ∈ s.map (virt / pageSize), p / pageSize ∈ s.owned

/-- `vmm_get_physical` says what the map says, for all addresses of the lower half. -/
def TranslatesAs (space : AddressSpace) (s : VmState) : Prop :=
  ∀ virt, virt < 2 ^ 47 → vmmGetPhysical space virt s.pmm =
    some ((s.map (virt / pageSize)).elim 0 fun p => p + virt % pageSize, s.pmm)

/-- What is to hold of every step: the map is right after it, and the call succeeded. -/
def VmCorrect (space : AddressSpace) (s : VmState) (o : VmOp) (s' : VmState) : Prop :=
  TranslatesAs space s' ∧ match o with
    | .map virt phys flags => (vmmMap space virt phys flags s.pmm).map Prod.fst = some true
    | .mapRange virt phys pages flags => (vmmMapRange space virt phys pages flags s.pmm).map Prod.fst = some true
    | .allocPage virt flags => (vmmAllocPage space virt flags s.pmm).map Prod.fst = some virt
    | _ => True

structure VmInv (memmap : List MemmapEntry) (n : Nat) (s : VmState) : Prop where
  tables : LowerTables memmap n s.pmm
  map : ∀ page, page < 2 ^ 35 → translate s.pmm n page = (s.map page).map (· / pageSize)
  good : ∀ page, page < 2 ^ 35 → ∀ p ∈ s.map page, p % pageSize = 0
  owned : ∀ f ∈ s.owned, f ≠ 0 ∧ f < s.pmm.totalPages ∧ f ∉ s.pmm.freePages ∧ UsablePage memmap f ∧ s.pmm.Outside f ∧
    ¬ IsTable s.pmm (fun _ : Unit => n) Lower f

section Run

variable {memmap : List MemmapEntry} {space : AddressSpace} {n : Nat} {s : VmState}

theorem VmInv.translates (h : VmInv memmap n s) (hroot : space.pml4 = n * pageSize) : TranslatesAs space s := by
  intro virt hvirt
  have hpage : virt / pageSize < 2 ^ 35 := by
    simp only [pageSize]
    omega
  rw [vmmGetPhysical_spec hroot, walkTo_page, h.map _ hpage]
  cases hm : s.map (virt / pageSize) with
  | none => rfl
  | some p =>
      have := h.good _ hpage p (by simp [hm])
      simp only [Option.map_some, Option.elim_some]
      rw [Nat.div_mul_cancel (Nat.dvd_of_mod_eq_zero this)]

/-- The tables changed, and the owned frames are still apart from them. -/
theorem VmInv.owned_changed (h : VmInv memmap n s) {pmm : Pmm} (hc : Changed memmap n s.pmm pmm) :
    ∀ f ∈ s.owned, f ≠ 0 ∧ f < pmm.totalPages ∧ f ∉ pmm.freePages ∧ UsablePage memmap f ∧ pmm.Outside f ∧
      ¬ IsTable pmm (fun _ : Unit => n) Lower f := by
  intro f hf
  obtain ⟨h0, hlt, hfree, huse, hout, htable⟩ := h.owned f hf
  refine ⟨h0, by rw [hc.same.totalPages]; exact hlt, fun hmem => hfree (hc.free hmem), huse, hc.same.outside.mpr hout,
    fun ht => ?_⟩
  rcases hc.reached f ht with ht | ht
  · exact htable ht
  · exact hfree ht

/-- One page is mapped or unmapped. -/
theorem VmInv.remap (h : VmInv memmap n s) {k virt : Nat} {x : Option Nat} {pmm : Pmm} (hvirt : virt < 2 ^ 47)
    (hx : ∀ p ∈ x, p % pageSize = 0)
    (hm : Remaps memmap (fun _ : Unit => n) Lower k () (tablePath virt) (ptIndex virt) (x.map (· / pageSize)) s.pmm pmm) :
    VmInv memmap n { s with pmm := pmm, map := Function.update s.map (virt / pageSize) x } := by
  refine ⟨hm.tables, fun page hpage => ?_, fun page hpage p hp => ?_, h.owned_changed hm.changed⟩
  · rw [hm.translate hvirt hpage]
    by_cases e : page = virt / pageSize
    · rw [if_pos e, e]
      simp only [Function.update_self]
    · rw [if_neg e]
      simp only [Function.update_of_ne e]
      exact h.map page hpage
  · by_cases e : page = virt / pageSize
    · simp only [e, Function.update_self] at hp
      exact hx p hp
    · simp only [Function.update_of_ne e] at hp
      exact h.good page hpage p hp

/-- `vmm_map` with enough pages. -/
theorem VmInv.vmmMap (hmap : GoodMap memmap) (h : VmInv memmap n s) (hroot : space.pml4 = n * pageSize)
    {virt phys flags : Nat} (hvirt : virt < 2 ^ 47) (hphys : phys % pageSize = 0) (h64 : phys < 2 ^ 64)
    (hflags : flags < 2 ^ 9) (hroom : 3 ≤ s.pmm.freePages.card) :
    ∃ pmm, Mem.vmmMap space virt phys flags s.pmm = some (true, pmm) ∧
      VmInv memmap n { s with pmm := pmm, map := Function.update s.map (virt / pageSize) (some phys) } := by
  have hf : flags < pageSize := Nat.lt_of_lt_of_le hflags (by decide)
  rcases vmmMap_spec hmap h.tables (covers_lower hvirt) hroot h64 hf with ⟨pmm, -, hg, hempty⟩ | ⟨pmm, hr, hm⟩
  · have := hg.count
    rw [hempty, Finset.card_empty] at this
    omega
  · exact ⟨pmm, hr, h.remap (x := some phys) hvirt (fun p hp => by cases hp; exact hphys) hm⟩

theorem VmInv.vmmUnmap (h : VmInv memmap n s) (hroot : space.pml4 = n * pageSize) {virt : Nat} (hvirt : virt < 2 ^ 47) :
    ∃ pmm, Mem.vmmUnmap space virt s.pmm = some ((), pmm) ∧
      VmInv memmap n { s with pmm := pmm, map := Function.update s.map (virt / pageSize) none } := by
  obtain ⟨pmm, hr, hm⟩ := vmmUnmap_spec h.tables (covers_lower hvirt) hroot
  exact ⟨pmm, hr, h.remap (x := none) hvirt (fun p hp => by cases hp) hm⟩

theorem VmInv.mapRange (hmap : GoodMap memmap) (h : VmInv memmap n s) (hroot : space.pml4 = n * pageSize)
    {virt phys pages flags : Nat} (hvirt : virt + pages * pageSize ≤ 2 ^ 47) (hphys : phys % pageSize = 0)
    (h52 : phys + pages * pageSize ≤ 2 ^ 52) (hflags : flags < 2 ^ 9) (hroom : 3 * pages ≤ s.pmm.freePages.card) :
    ∃ pmm, vmmMapRange space virt phys pages flags s.pmm = some (true, pmm) ∧
      VmInv memmap n { s with
        pmm := pmm
        map := fun page =>
          if true = true ∧ virt / pageSize ≤ page ∧ page < virt / pageSize + pages then
            some (phys + (page - virt / pageSize) * pageSize)
          else s.map page } := by
  have hf : flags < pageSize := Nat.lt_of_lt_of_le hflags (by decide)
  have hv : virt + (0 + pages) * pageSize ≤ 2 ^ 47 := by rwa [Nat.zero_add]
  have hp : phys + (0 + pages) * pageSize ≤ 2 ^ 52 := by rwa [Nat.zero_add]
  obtain ⟨pmm, hr, hc, htr⟩ := mapRangeFrom_spec hmap hroot hf h.tables hv hp hroom
  refine ⟨pmm, hr, hc.tables, fun page hpage => ?_, fun page hpage p hp => ?_, h.owned_changed hc⟩
  · rw [htr page hpage, Nat.add_zero]
    by_cases hin : virt / pageSize ≤ page ∧ page < virt / pageSize + pages
    · rw [if_pos hin]
      simp only [hin, and_self, if_true, Option.map_some]
      rw [Nat.add_mul_div_right _ _ (by decide)]
    · rw [if_neg hin]
      simp only [hin, true_and, if_false]
      exact h.map page hpage
  · by_cases hin : virt / pageSize ≤ page ∧ page < virt / pageSize + pages
    · simp only [hin, and_self, if_true, Option.mem_def, Option.some.injEq] at hp
      rw [← hp, Nat.add_mul_mod_self_right]
      exact hphys
    · simp only [hin, true_and, if_false] at hp
      exact h.good page hpage p hp

theorem VmInv.unmapRange (h : VmInv memmap n s) (hroot : space.pml4 = n * pageSize) {virt pages : Nat}
    (hvirt : virt + pages * pageSize ≤ 2 ^ 47) :
    ∃ pmm, vmmUnmapRange space virt pages s.pmm = some ((), pmm) ∧
      VmInv memmap n { s with
        pmm := pmm
        map := fun page => if virt / pageSize ≤ page ∧ page < virt / pageSize + pages then none else s.map page } := by
  obtain ⟨pmm, hr, hc, htr⟩ := vmmUnmapRange_spec hroot h.tables hvirt
  refine ⟨pmm, hr, hc.tables, fun page hpage => ?_, fun page hpage p hp => ?_, h.owned_changed hc⟩
  · rw [htr page hpage]
    by_cases hin : virt / pageSize ≤ page ∧ page < virt / pageSize + pages
    · simp only [hin, and_self, if_true, Option.map_none]
    · simp only [hin, if_false]
      exact h.map page hpage
  · by_cases hin : virt / pageSize ≤ page ∧ page < virt / pageSize + pages
    · simp [hin] at hp
    · simp only [hin, if_false] at hp
      exact h.good page hpage p hp

theorem VmInv.allocPage (hmap : GoodMap memmap) (h : VmInv memmap n s) (hroot : space.pml4 = n * pageSize)
    {virt flags : Nat} (hvirt : virt < 2 ^ 47) (hflags : flags < 2 ^ 9) (hroom : 4 ≤ s.pmm.freePages.card) :
    ∃ pmm, vmmAllocPage space virt flags s.pmm = some (virt, pmm) ∧
      VmInv memmap n
        { pmm := pmm
          map := Function.update s.map (virt / pageSize) (some (nextFrame s.pmm))
          owned := insert (nextFrame s.pmm / pageSize) s.owned } := by
  rcases h.tables.sound.alloc hmap h.tables.placed with ⟨-, hempty⟩ | ⟨p, s₁, hr, hp, hp0, haddr, hsound, hsame, hset, -, hmem⟩
  · rw [hempty, Finset.card_empty] at hroom
    omega
  obtain ⟨hg, hwalk, -⟩ := h.tables.alloc hp hsound hsame hset hmem
  have hnext : nextFrame s.pmm = p * pageSize := by rw [nextFrame, hr, Option.elim_some, haddr]
  have hlt := ((Pmm.mem_freePages h.tables.placed).mp hp).1
  have h52 := h.tables.sound.sized.total
  -- the state in which the page is mapped: one more frame is owned
  have h₁ : VmInv memmap n { pmm := s₁, map := s.map, owned := insert p s.owned } := by
    refine ⟨hg.tables, fun page hpage => ?_, h.good, fun f hf => ?_⟩
    · rw [hg.translate hpage]
      exact h.map page hpage
    · rcases Finset.mem_insert.mp hf with rfl | hf
      · refine ⟨hp0, by rw [hsame.totalPages]; exact hlt, by rw [hset]; exact Finset.notMem_erase _ _,
          (h.tables.sound.free f hp).1, hsame.outside.mpr (h.tables.sound.free f hp).2, fun ht => ?_⟩
        obtain ⟨r, q, hq, hw⟩ := ht
        exact (h.tables.used f ⟨r, q, hq, (hwalk r q hq).symm.trans hw⟩).1 hp
      · exact h.owned_changed ⟨hsame, hg.tables, hg.reached, hg.free⟩ f hf
  have h64 : p * pageSize < 2 ^ 64 := by
    simp only [pageSize]
    omega
  have hroom₁ : 3 ≤ s₁.freePages.card := by
    have := hg.count
    omega
  obtain ⟨pmm, hm, hinv⟩ := h₁.vmmMap hmap hroot hvirt (Nat.mul_mod_left p pageSize) h64 hflags hroom₁
  have hne : pageAddr p ≠ 0 := by
    intro e
    rw [e] at haddr
    simp only [pageSize, UInt64.toNat_zero] at haddr
    omega
  refine ⟨pmm, ?_, ?_⟩
  · rw [vmmAllocPage, bind_run, show allocFrame s.pmm = some (pageAddr p, s₁) from hr, Option.bind_some]
    simp only
    rw [if_neg hne, bind_run, haddr, hm]
    rfl
  · rw [hnext, Nat.mul_div_cancel _ (by decide)]
    exact hinv

theorem VmInv.freePage (h : VmInv memmap n s) (hroot : space.pml4 = n * pageSize) {virt : Nat} (hvirt : virt < 2 ^ 47)
    (howned : ∀ p ∈ s.map (virt / pageSize), p / pageSize ∈ s.owned) :
    ∃ pmm, vmmFreePage space virt s.pmm = some ((), pmm) ∧
      VmInv memmap n
        { pmm := pmm
          map := Function.update s.map (virt / pageSize) none
          owned := (s.map (virt / pageSize)).elim s.owned fun p => s.owned.erase (p / pageSize) } := by
  have hphys := h.translates hroot virt hvirt
  have hpage : virt / pageSize < 2 ^ 35 := by
    simp only [pageSize]
    omega
  cases hm : s.map (virt / pageSize) with
  | none =>
      refine ⟨s.pmm, ?_, ?_⟩
      · rw [vmmFreePage, bind_run, hphys, hm]
        rfl
      · rw [show Function.update s.map (virt / pageSize) none = s.map by rw [← hm]; exact Function.update_eq_self _ _]
        exact h
  | some p =>
      have hdiv := h.good _ hpage p (by simp [hm])
      obtain ⟨hf0, hlt, hfree, huse, hout, -⟩ := h.owned _ (howned p (by simp [hm]))
      obtain ⟨s₁, hr, hinv⟩ := h.vmmUnmap hroot hvirt
      obtain ⟨hf0, hlt₁, -, -, hout₁, htable₁⟩ := hinv.owned _ (howned p (by simp [hm]))
      have h52 := h.tables.sound.sized.total
      obtain ⟨pmm, hrel, hsound, hsame, hset, hmem⟩ := hinv.tables.sound.release hinv.tables.placed hf0 (by omega)
        (fun _ => ⟨huse, hout₁⟩) (Nat.mod_lt virt (show 0 < pageSize by decide))
      have hsub : pmm.freePages ⊆ insert (p / pageSize) s₁.freePages := by
        rw [hset, if_pos hlt₁]
      obtain ⟨htables, hwalk, hlast⟩ := hinv.tables.release htable₁ hsound hsame hsub hmem
      have hp : p / pageSize * pageSize = p := Nat.div_mul_cancel (Nat.dvd_of_mod_eq_zero hdiv)
      rw [hp] at hrel
      refine ⟨pmm, ?_, htables, fun page hpage => ?_, hinv.good, fun f hf => ?_⟩
      · rw [hm, Option.elim_some] at hphys
        rw [vmmFreePage, bind_run, hphys, Option.bind_some]
        simp only
        have hne : p + virt % pageSize ≠ 0 := by
          intro e
          have : p = 0 := by omega
          rw [this] at hf0
          exact hf0 (Nat.zero_div _)
        rw [if_neg hne, bind_run, hr, Option.bind_some, freeFrame]
        simp only [hrel]
        rfl
      · have hvp : page * pageSize < 2 ^ 47 := by
          simp only [pageSize]
          omega
        have hc := covers_lower hvp
        rw [translate, hlast hc.tables.2.2.2]
        exact hinv.map page hpage
      · simp only [Option.elim_some, Finset.mem_erase] at hf
        obtain ⟨hne, hf⟩ := hf
        obtain ⟨h0, hlt, hfree, huse, hout, ht⟩ := hinv.owned f hf
        refine ⟨h0, by rw [hsame.totalPages]; exact hlt, fun hmem => ?_, huse, hsame.outside.mpr hout, fun ht' => ?_⟩
        · rcases Finset.mem_insert.mp (hsub hmem) with rfl | hmem
          · exact hne rfl
          · exact hfree hmem
        · obtain ⟨r, q, hq, hw⟩ := ht'
          exact ht ⟨r, q, hq, (hwalk r q hq).symm.trans hw⟩

/-- **One step.** -/
theorem VmInv.step (hmap : GoodMap memmap) (h : VmInv memmap n s) (hroot : space.pml4 = n * pageSize) {o : VmOp}
    (huse : VmUse s o) (hsafe : VmSafe s o) :
    ∃ s', vmStep space s o = some s' ∧ VmInv memmap n s' ∧ VmCorrect space s o s' := by
  cases o with
  | map virt phys flags =>
      obtain ⟨⟨hdiv, -, h52⟩, hflags, hroom⟩ := huse
      obtain ⟨pmm, hr, hinv⟩ := h.vmmMap hmap hroot hsafe hdiv (by omega) hflags hroom
      exact ⟨_, by rw [vmStep, hr]; rfl, hinv, hinv.translates hroot, congrArg (Option.map Prod.fst) hr⟩
  | mapRange virt phys pages flags =>
      obtain ⟨⟨hdiv, -, -⟩, h52, hflags, hroom⟩ := huse
      obtain ⟨pmm, hr, hinv⟩ := h.mapRange hmap hroot hsafe hdiv h52 hflags hroom
      exact ⟨_, by rw [vmStep, hr]; rfl, hinv, hinv.translates hroot, congrArg (Option.map Prod.fst) hr⟩
  | unmap virt =>
      obtain ⟨pmm, hr, hinv⟩ := h.vmmUnmap hroot hsafe
      exact ⟨_, by rw [vmStep, hr]; rfl, hinv, hinv.translates hroot, trivial⟩
  | unmapRange virt pages =>
      obtain ⟨pmm, hr, hinv⟩ := h.unmapRange hroot hsafe
      exact ⟨_, by rw [vmStep, hr]; rfl, hinv, hinv.translates hroot, trivial⟩
  | allocPage virt flags =>
      obtain ⟨hflags, hroom⟩ := huse
      obtain ⟨pmm, hr, hinv⟩ := h.allocPage hmap hroot hsafe hflags hroom
      exact ⟨_, by rw [vmStep, hr]; rfl, hinv, hinv.translates hroot, congrArg (Option.map Prod.fst) hr⟩
  | freePage virt =>
      obtain ⟨pmm, hr, hinv⟩ := h.freePage hroot hsafe.1 hsafe.2
      exact ⟨_, by rw [vmStep, hr]; rfl, hinv, hinv.translates hroot, trivial⟩

end Run

/-! ### A new address space -/

section Create

variable {memmap : List MemmapEntry} {kernel space : AddressSpace} {s s' : Pmm}

/-- **A new address space maps nothing in its lower half.** -/
theorem vmInv_create (hmap : GoodMap memmap) (hs : s.Sound memmap) (hb : s.bitmap ≠ 0)
    (h : vmmCreateAddressSpace kernel s = some (some space, s')) :
    ∃ n, space.pml4 = n * pageSize ∧ VmInv memmap n { pmm := s' } := by
  rcases @vmmCreateAddressSpace_spec memmap kernel s hmap hs hb with ⟨_, hr, -⟩ | ⟨f, n, s₁, hr, hc⟩
  · rw [h] at hr
    cases hr
  rw [h] at hr
  cases hr
  have hwalk : ∀ (r : Unit) (q : List Nat), Lower r q → ∀ x, Radix.walk child (view s'.mem) n q = some x →
      q = [] ∧ x = n := by
    intro r q hq x hw
    cases q with
    | nil =>
        cases hw
        exact ⟨rfl, rfl⟩
    | cons i q =>
        rw [Radix.walk, hc.lower i (hq.2 i rfl)] at hw
        cases hw
  refine ⟨n, rfl, ⟨hc.sound, ?_, ⟨lower_closed, fun {r q r' q' x} hq hq' h₁ h₂ => ?_⟩, fun x hx => ?_⟩,
    fun page hpage => ?_, fun page _ p hp => (by cases hp), fun f hf => (by simp at hf)⟩
  · rw [hc.same.bitmap]
    exact hb
  · obtain ⟨rfl, -⟩ := hwalk r q hq x h₁
    obtain ⟨rfl, -⟩ := hwalk r' q' hq' x h₂
    exact ⟨rfl, rfl⟩
  · obtain ⟨r, q, hq, hw⟩ := hx
    obtain ⟨-, rfl⟩ := hwalk r q hq x hw
    rw [hc.free]
    exact ⟨Finset.notMem_erase _ _, hc.same.outside.mpr (hs.free x hc.pages.2.1).2⟩
  · have h4 : pml4Index (page * pageSize) < 256 := by
      simp only [pml4Index, pageSize]
      omega
    simp only [translate, walkTo, tablePath, List.cons_append, Radix.walk, hc.lower _ h4]
    rfl

end Create

/-- **The page tables are a finite map.**  In every run on an address space that `vmm_create_address_space`
returned, every call succeeds, and after every step the tables translate the lower half as the most recent
mappings say. -/
theorem page_tables_map {memmap : List MemmapEntry} (hmap : GoodMap memmap) {kernel space : AddressSpace} {s s' : Pmm}
    (hs : s.Sound memmap) (hb : s.bitmap ≠ 0) (hnew : vmmCreateAddressSpace kernel s = some (some space, s'))
    {os : List VmOp} (huse : Meets (vmStep space) VmUse { pmm := s' } os)
    (hsafe : Meets (vmStep space) VmSafe { pmm := s' } os) :
    TranslatesAs space { pmm := s' } ∧ Along (vmStep space) (VmCorrect space) { pmm := s' } os ∧
      (run (vmStep space) { pmm := s' } os).isSome := by
  obtain ⟨n, hroot, hinv⟩ := vmInv_create hmap hs hb hnew
  have hstep : ∀ s o, VmInv memmap n s → VmUse s o ∧ VmSafe s o →
      ∃ s', vmStep space s o = some s' ∧ VmInv memmap n s' ∧ VmCorrect space s o s' := fun s o hI hC =>
    hI.step hmap hroot hC.1 hC.2
  refine ⟨hinv.translates hroot, along_of_inv (fun s o s' hI hC hs => ?_) hinv (huse.and hsafe), ?_⟩
  · obtain ⟨s₁, hr, hI₁, hok⟩ := hstep s o hI hC
    rw [hs] at hr
    cases hr
    exact ⟨hI₁, hok⟩
  · obtain ⟨s₁, hs₁⟩ := run_defined (fun s o hI hC => by
      obtain ⟨s₁, hr, hI₁, -⟩ := hstep s o hI hC
      exact ⟨s₁, hr, hI₁⟩) hinv (huse.and hsafe)
    rw [hs₁]
    rfl

/-! ### Runs on fixed inputs -/

instance (phys : Nat) : Decidable (GoodPhys phys) := by delta GoodPhys; infer_instance

instance (s : VmState) (o : VmOp) : Decidable (VmUse s o) := by
  apply VmOp.casesOn (motive := fun o => Decidable (VmUse s o)) o <;> intros <;> (delta VmUse; infer_instance)

instance (s : VmState) (o : VmOp) : Decidable (VmSafe s o) := by
  apply VmOp.casesOn (motive := fun o => Decidable (VmSafe s o)) o <;> intros <;> (delta VmSafe; infer_instance)

/-- Fifteen usable pages. -/
def roomyMap : List MemmapEntry := [⟨0x1000, 0xF000, .usable, by decide⟩]

theorem roomyMap_good : GoodMap roomyMap := by
  refine ⟨by decide, List.pairwise_singleton _ _, ?_⟩
  rintro ⟨e, he, -, hlow, -⟩
  rw [List.mem_singleton.mp he] at hlow
  exact absurd hlow (by decide)

/-- The allocator with fifteen pages, and its first page taken by the bitmap. -/
def roomyPmm : Pmm := pmmInit roomyMap 0x1000000 fun _ => 0

/-- The first address space, over a kernel whose PML4 is in page 0. -/
def firstSpace : AddressSpace := ⟨0x2000, 0x3000⟩

def firstState : VmState := { pmm := ((vmmCreateAddressSpace ⟨0, 0⟩ roomyPmm).map Prod.snd).getD roomyPmm }

theorem firstState_created :
    vmmCreateAddressSpace ⟨0, 0⟩ roomyPmm = some (some firstSpace, firstState.pmm) := by
  have h : (vmmCreateAddressSpace ⟨0, 0⟩ roomyPmm).map Prod.fst = some (some firstSpace) := by decide +kernel
  rw [firstState]
  cases hr : vmmCreateAddressSpace ⟨0, 0⟩ roomyPmm with
  | none =>
      rw [hr] at h
      cases h
  | some r =>
      obtain ⟨space, s⟩ := r
      rw [hr] at h
      cases h
      rfl

/-- A page of its own, a device page twice, a range over it, and some of it taken back. -/
def mapRun : List VmOp :=
  [.allocPage 0x400123 6, .map 0x1000 0xFD000000 0x13, .map 0x1FFF 0xFE000000 3, .mapRange 0x1000 0x9000 2 7,
    .unmap 0x2000, .freePage 0x400FFF, .freePage 0x400000, .unmapRange 0 2]

theorem page_tables_map_mapRun :
    Meets (vmStep firstSpace) VmUse firstState mapRun ∧ Meets (vmStep firstSpace) VmSafe firstState mapRun ∧
      Along (vmStep firstSpace) (VmCorrect firstSpace) firstState mapRun := by
  have huse : Meets (vmStep firstSpace) VmUse firstState mapRun := by decide +kernel
  have hsafe : Meets (vmStep firstSpace) VmSafe firstState mapRun := by decide +kernel
  have hb : roomyPmm.bitmap ≠ 0 := by decide +kernel
  exact ⟨huse, hsafe,
    (page_tables_map roomyMap_good (pmmInit_sound roomyMap_good hb) hb firstState_created huse hsafe).2.1⟩

/-- The PML4 is mapped as if it were a page of the process, and freed with it; a later page takes it. -/
def freeTableRun : List VmOp := [.map 0x1000 0x3000 3, .freePage 0x1000, .map 0x2000 0x9000 3, .allocPage 0x3000 3]

/-- Two usable pages, and sixteen from 2 MiB on. -/
def highMap : List MemmapEntry := [⟨0x1000, 0x2000, .usable, by decide⟩, ⟨0x200000, 0x10000, .usable, by decide⟩]

/-- The kernel's tables of the boot loader, which map the second 2 MiB of memory as one large page. -/
def largePage : Bytes :=
  wr64 (wr64 (wr64 (fun _ => 0) (0x100000 + 8 * 256) 0x101003) 0x101000 0x102003) (0x102000 + 8) 0x200083

/-- An address space over them; its PML4 is the first page of the large one. -/
def largeStart : Option (Option AddressSpace × Pmm) :=
  vmmCreateAddressSpace ⟨0, 0x100000⟩ (pmmInit highMap 0xFFFF800000000000 largePage)

def highSpace : AddressSpace := ⟨0x2000, 0x200000⟩

/-- A page of the process is mapped, and then a page of the kernel's half. -/
def upperRun : List VmOp := [.map 0x2000 0x9000 3, .map 0xFFFF800000200000 0x9000 3]

/-- In both runs a page was mapped, not unmapped, and is lost: the PML4 was freed, or the large page taken for a
page table and the PML4 in it written to. -/
theorem mapping_lost :
    (Meets (vmStep firstSpace) VmUse firstState freeTableRun ∧
      ∃ s, run (vmStep firstSpace) firstState freeTableRun = some s ∧ s.map 2 = some 0x9000 ∧
        (vmmGetPhysical firstSpace 0x2000 s.pmm).map Prod.fst = some 0 ∧ ¬ TranslatesAs firstSpace s) ∧
    ∃ s', largeStart = some (some highSpace, s') ∧ Meets (vmStep highSpace) VmUse { pmm := s' } upperRun ∧
      ∃ s, run (vmStep highSpace) { pmm := s' } upperRun = some s ∧ s.map 2 = some 0x9000 ∧
        (vmmGetPhysical highSpace 0x2000 s.pmm).map Prod.fst = some 0 ∧ ¬ TranslatesAs highSpace s := by
  have hlost : ∀ {space s}, s.map 2 = some 0x9000 → (vmmGetPhysical space 0x2000 s.pmm).map Prod.fst = some 0 →
      ¬ TranslatesAs space s := by
    intro space s hmap hphys htr
    rw [htr 0x2000 (by decide), show 0x2000 / pageSize = 2 from rfl, hmap] at hphys
    cases hphys
  constructor
  · have huse : Meets (vmStep firstSpace) VmUse firstState freeTableRun := by decide +kernel
    have hend : (run (vmStep firstSpace) firstState freeTableRun).any fun s =>
        decide (s.map 2 = some 0x9000 ∧ (vmmGetPhysical firstSpace 0x2000 s.pmm).map Prod.fst = some 0) := by
      decide +kernel
    obtain ⟨s, hs, h⟩ := (Option.any_eq_true _ _).mp hend
    obtain ⟨hmap, hphys⟩ := of_decide_eq_true h
    exact ⟨huse, s, hs, hmap, hphys, hlost hmap hphys⟩
  · have hstart : largeStart.any fun r => decide (r.1 = some highSpace ∧
        Meets (vmStep highSpace) VmUse { pmm := r.2 } upperRun ∧
          (run (vmStep highSpace) { pmm := r.2 } upperRun).any fun s =>
            decide (s.map 2 = some 0x9000 ∧ (vmmGetPhysical highSpace 0x2000 s.pmm).map Prod.fst = some 0)) := by
      decide +kernel
    obtain ⟨⟨space, s'⟩, hs', h⟩ := (Option.any_eq_true _ _).mp hstart
    obtain ⟨hspace, huse, hend⟩ := of_decide_eq_true h
    obtain ⟨s, hs, h⟩ := (Option.any_eq_true _ _).mp hend
    obtain ⟨hmap, hphys⟩ := of_decide_eq_true h
    have hspace : space = some highSpace := hspace
    rw [hspace] at hs'
    exact ⟨s', hs', huse, s, hs, hmap, hphys, hlost hmap hphys⟩

end Blackmount.Mem
