import Blackmount.Mem.Hardware

/-!
# Mem — several trees of tables

The trees of several PML4s in one memory.  They may share tables, as all address spaces share those of the
kernel's half, but every table is at one depth only, as the processor reads it.

* `Trees`: the tables of all walks are in use, outside the bitmap, and each is at one depth.
* `Deeper`: what `vmm_map` and `vmm_unmap` leave: all tables that were there, and the entries of every PML4 but
  perhaps some that were not present.
* `Trees.map`, `Trees.unmap`, `Trees.aside`, `Trees.created`.
-/

namespace Blackmount.Mem
open Blackmount.Lib

section Trees

variable {memmap : List MemmapEntry} {roots : Nat → Prop} {X : Nat → Nat → Prop} {s s' : Pmm}

variable (memmap roots) in
/-- The tables on the walks from certain PML4s. -/
structure Trees (s : Pmm) : Prop where
  sound : s.Sound memmap
  placed : s.bitmap ≠ 0
  small : s.totalPages ≤ 2 ^ 40
  typed : ∀ {r r' v v' d d' m}, roots r → roots r' → d ≤ 3 → d' ≤ 3 → hwTable s.mem r v d = some m →
    hwTable s.mem r' v' d' = some m → d = d'
  used : ∀ {r v d m}, roots r → d ≤ 3 → hwTable s.mem r v d = some m → m ∉ s.freePages ∧ s.Outside m

variable (memmap roots X) in
/-- Tables were added, all the others are where they were; the entries of the PML4s lead where they led, but
perhaps those of `X`. -/
structure Deeper (s s' : Pmm) : Prop where
  same : Pmm.Same s s'
  trees : Trees memmap roots s'
  free : s'.freePages ⊆ s.freePages
  kept : ∀ {r v d m}, roots r → d ≤ 3 → hwTable s.mem r v d = some m → hwTable s'.mem r v d = some m
  fresh : ∀ {r v d m}, roots r → d ≤ 3 → hwTable s'.mem r v d = some m → hwTable s.mem r v d = some m ∨ m ∈ s.freePages
  plain : ∀ {r v}, roots r → PlainTables s.mem r v → PlainTables s'.mem r v
  top : ∀ {r j}, roots r → hwNext 3 (view s'.mem r j) = hwNext 3 (view s.mem r j) ∨ X r j

theorem Deeper.refl (h : Trees memmap roots s) : Deeper memmap roots X s s :=
  ⟨.refl s, h, Finset.Subset.refl _, fun _ _ hm => hm, fun _ _ hm => .inl hm, fun _ hp => hp, fun _ => .inl rfl⟩

theorem Deeper.trans {s'' : Pmm} (h : Deeper memmap roots X s s') (h' : Deeper memmap roots X s' s'') :
    Deeper memmap roots X s s'' := by
  refine ⟨h.same.trans h'.same, h'.trees, h'.free.trans h.free, fun hr hd hm => h'.kept hr hd (h.kept hr hd hm),
    fun hr hd hm => ?_, fun hr hp => h'.plain hr (h.plain hr hp), fun {r j} hr => ?_⟩
  · rcases h'.fresh hr hd hm with hm | hm
    · exact h.fresh hr hd hm
    · exact .inr (h.free hm)
  · rcases h.top (j := j) hr with e | e
    · rcases h'.top (j := j) hr with e' | hx
      · exact .inl (e'.trans e)
      · exact .inr hx
    · exact .inr e

/-- Tables whose entries lead where they led. -/
theorem Trees.agree (h : Trees memmap roots s) (hsound : s'.Sound memmap) (hsame : Pmm.Same s s')
    (hfree : ∀ {r v d m}, roots r → d ≤ 3 → hwTable s.mem r v d = some m → m ∉ s'.freePages)
    (hnext : ∀ {r v d m}, roots r → d < 3 → hwTable s.mem r v d = some m →
      hwNext (3 - d) (view s'.mem m (hwIndex (3 - d) v)) = hwNext (3 - d) (view s.mem m (hwIndex (3 - d) v))) :
    Trees memmap roots s' ∧ ∀ {r v d}, roots r → d ≤ 3 → hwTable s'.mem r v d = hwTable s.mem r v d := by
  have htable : ∀ {r v d}, roots r → d ≤ 3 → hwTable s'.mem r v d = hwTable s.mem r v d := fun hr hd =>
    hwTable_congr (fun _ hd' _ hm => hnext hr hd' hm) hd
  refine ⟨⟨hsound, by rw [hsame.bitmap]; exact h.placed, by rw [hsame.totalPages]; exact h.small,
    fun hr hr' hd hd' hm hm' => ?_, fun hr hd hm => ?_⟩, htable⟩
  · rw [htable hr hd] at hm
    rw [htable hr' hd'] at hm'
    exact h.typed hr hr' hd hd' hm hm'
  · rw [htable hr hd] at hm
    exact ⟨hfree hr hd hm, hsame.outside.mpr (h.used hr hd hm).2⟩

/-! ### One level down -/

/-- Flags added to an entry. -/
theorem Trees.flags (h : Trees memmap roots s) {r v d m j g : Nat} (hr : roots r) (hd : d ≤ 3)
    (hm : hwTable s.mem r v d = some m) (hj : j < 512) (hg : g < 8) (heven : g % 2 = 0) :
    Deeper memmap roots X s (wrote s m j (view s.mem m j ||| g)) := by
  have hnext := hwNext_flags s m hj hg heven
  obtain ⟨hsound, hfree⟩ := h.sound.write (m := (wrote s m j (view s.mem m j ||| g)).mem) fun a ha =>
    wrote_out hj fun hin => ha ((h.used hr hd hm).2.off hin)
  have hsound : (wrote s m j (view s.mem m j ||| g)).Sound memmap := hsound
  have hfree : (wrote s m j (view s.mem m j ||| g)).freePages = s.freePages := hfree
  obtain ⟨htrees, htable⟩ := h.agree hsound ⟨rfl, rfl, rfl, rfl⟩
    (fun hr hd hm => by rw [hfree]; exact (h.used hr hd hm).1) fun _ _ _ => hnext _ _ _
  refine ⟨⟨rfl, rfl, rfl, rfl⟩, htrees, by rw [hfree], fun hr hd hm => (htable hr hd).trans hm,
    fun hr hd hm => .inl ((htable hr hd).symm.trans hm), fun {r v} hr hp d hd m' hm' => ?_, fun _ => .inl (hnext _ _ _)⟩
  have hp := hp d hd m' ((htable hr (by omega)).symm.trans hm')
  rcases view_flags s m hj hg m' (hwIndex (3 - d) v) with e | e
  · rw [e]
    exact hp
  · rw [e]
    exact hp.or hg heven

/-- A write to a page table. -/
theorem Trees.leaf (h : Trees memmap roots s) {r v pt j : Nat} (hr : roots r) (hpt : hwTable s.mem r v 3 = some pt)
    (hj : j < 512) (e : Nat) : Deeper memmap roots X s (wrote s pt j e) := by
  obtain ⟨hsound, hfree⟩ := h.sound.write (m := (wrote s pt j e).mem) fun a ha =>
    wrote_out hj fun hin => ha ((h.used hr (Nat.le_refl 3) hpt).2.off hin)
  have hsound : (wrote s pt j e).Sound memmap := hsound
  have hfree : (wrote s pt j e).freePages = s.freePages := hfree
  -- a page table is at depth 3 only
  have hview : ∀ {r' v' d m}, roots r' → d < 3 → hwTable s.mem r' v' d = some m → ∀ i',
      view (wrote s pt j e).mem m i' = view s.mem m i' := by
    intro r' v' d m hr' hd hm i'
    rw [wrote, view_wr64 _ _ _ hj, Radix.set_of_ne]
    rintro ⟨rfl, -⟩
    have := h.typed hr' hr (by omega) (Nat.le_refl 3) hm hpt
    omega
  obtain ⟨htrees, htable⟩ := h.agree hsound ⟨rfl, rfl, rfl, rfl⟩
    (fun hr hd hm => by rw [hfree]; exact (h.used hr hd hm).1) fun hr' hd hm => by rw [hview hr' hd hm]
  refine ⟨⟨rfl, rfl, rfl, rfl⟩, htrees, by rw [hfree], fun hr hd hm => (htable hr hd).trans hm,
    fun hr hd hm => .inl ((htable hr hd).symm.trans hm), fun {r' v'} hr' hp d hd m hm => ?_, fun {r' j'} hr' => .inl ?_⟩
  · have hm := (htable hr' (by omega)).symm.trans hm
    rw [hview hr' hd hm]
    exact hp d hd m hm
  · have htop : hwTable s.mem r' 0 0 = some r' := rfl
    rw [hview hr' (by omega) htop]

/-- A new table. -/
theorem Trees.grow (h : Trees memmap roots s) {r v d m p : Nat} {s₁ : Pmm} (hr : roots r) (hd : d < 3)
    (hm : hwTable s.mem r v d = some m) (habs : ¬ view s.mem m (hwIndex (3 - d) v) % 2 = 1)
    (hX : hwNext 3 (view s.mem r (hwIndex 3 v)) = none → X r (hwIndex 3 v)) (hp : p ∈ s.freePages) (hsound : s₁.Sound memmap) (hsame : Pmm.Same s s₁) (hset : s₁.freePages = s.freePages.erase p)
    (hzero : ∀ a, InPage p a → s₁.mem a = 0) (hmem : ∀ a, ¬ InPage p a → s.OffBitmap a → s₁.mem a = s.mem a) :
    Deeper memmap roots X s
        (wrote s₁ m (hwIndex (3 - d) v) (pteCreate (p * pageSize) (pageWrite ||| pageUser ||| pagePresent))) ∧
      hwTable (wrote s₁ m (hwIndex (3 - d) v) (pteCreate (p * pageSize) (pageWrite ||| pageUser ||| pagePresent))).mem r v
        (d + 1) = some p := by
  have hi := hwIndex_lt (3 - d) v
  have hlt : p < 2 ^ 40 := Nat.lt_of_lt_of_le ((Pmm.mem_freePages h.placed).mp hp).1 h.small
  have hplain := fun l => (plain_new (l := l) hlt).1
  have hnew := (plain_new (l := 3 - d) hlt).2
  have hsmall : pteCreate (p * pageSize) (pageWrite ||| pageUser ||| pagePresent) < 2 ^ 64 :=
    Nat.lt_trans (hplain 0 (hwNext_some hnew)).2 (by decide)
  generalize pteCreate (p * pageSize) (pageWrite ||| pageUser ||| pagePresent) = e at hplain hnew hsmall
  generalize hidx : hwIndex (3 - d) v = i at habs hi
  obtain ⟨hmfree, hmout⟩ := h.used hr (by omega) hm
  have hmp : m ≠ p := fun e => hmfree (e ▸ hp)
  have hview := view_wrote s₁ m hi hsmall
  -- tables keep their entries, but for the one written
  have hentry : ∀ {r' v' d' m'}, roots r' → d' ≤ 3 → hwTable s.mem r' v' d' = some m' → ∀ i', ¬ (m' = m ∧ i' = i) →
      view (wrote s₁ m i e).mem m' i' = view s.mem m' i' := by
    intro r' v' d' m' hr' hd' hm' i' hne
    obtain ⟨hnot, hout⟩ := h.used hr' hd' hm'
    rw [hview, Radix.set_of_ne hne]
    refine view_congr (fun a ha => hmem a (fun hpa => hnot ?_) (hout.off ha)) i'
    rw [show m' = p from InPage.eq ha hpa]
    exact hp
  have hkept : ∀ {r' v'}, roots r' → ∀ d' ≤ 3, ∀ m', hwTable s.mem r' v' d' = some m' →
      hwTable (wrote s₁ m i e).mem r' v' d' = some m' := by
    intro r' v' hr' d'
    induction d' with
    | zero => exact fun _ _ hm' => hm'
    | succ d' ih =>
        intro hd' m' hm'
        obtain ⟨m₀, hm₀⟩ := Option.isSome_iff_exists.mp (hwTable_above (d := d') (k := d' + 1) (by rw [hm']; rfl) (by omega))
        have hnext := (hwTable_succ hm₀).symm.trans hm'
        rw [hwTable_succ (ih (by omega) m₀ hm₀), hentry hr' (by omega) hm₀]
        · exact hnext
        · rintro ⟨rfl, hi'⟩
          rw [hi'] at hnext
          exact habs (hwNext_some hnext)
  have hpentry : ∀ j, view (wrote s₁ m i e).mem p j = 0 := by
    intro j
    rw [hview, Radix.set_of_ne fun hself => hmp hself.1.symm]
    exact view_zero hzero j
  have hcases : ∀ {r' v'}, roots r' → ∀ d' ≤ 3, ∀ m', hwTable (wrote s₁ m i e).mem r' v' d' = some m' →
      hwTable s.mem r' v' d' = some m' ∨ m' = p ∧ d' = d + 1 := by
    intro r' v' hr' d'
    induction d' with
    | zero => exact fun _ _ hm' => .inl hm'
    | succ d' ih =>
        intro hd' m' hm'
        obtain ⟨m₀, hm₀⟩ := Option.isSome_iff_exists.mp (hwTable_above (d := d') (k := d' + 1) (by rw [hm']; rfl) (by omega))
        have hnext := (hwTable_succ hm₀).symm.trans hm'
        rcases ih (by omega) m₀ hm₀ with hold | ⟨rfl, -⟩
        · by_cases hself : m₀ = m ∧ hwIndex (3 - d') v' = i
          · obtain ⟨rfl, hi'⟩ := hself
            obtain rfl := h.typed hr hr' (by omega) (by omega) hm hold
            rw [hi', hview, Radix.set_self, hnew] at hnext
            cases hnext
            exact .inr ⟨rfl, rfl⟩
          · rw [hentry hr' (by omega) hold _ hself] at hnext
            exact .inl ((hwTable_succ hold).trans hnext)
        · rw [hpentry] at hnext
          cases hnext
  obtain ⟨hsound', hfree⟩ := hsound.write (m := (wrote s₁ m i e).mem) fun a ha =>
    wrote_out hi fun hin => ha ((hsame.outside.mpr hmout).off hin)
  have hfree : (wrote s₁ m i e).freePages = s.freePages.erase p := hfree.trans hset
  have hsame' : Pmm.Same s (wrote s₁ m i e) := hsame.trans ⟨rfl, rfl, rfl, rfl⟩
  have hthere : hwTable (wrote s₁ m i e).mem r v (d + 1) = some p := by
    rw [hwTable_succ (hkept hr d (by omega) m hm), hidx, hview, Radix.set_self]
    exact hnew
  refine ⟨⟨hsame', ⟨hsound', by rw [hsame'.bitmap]; exact h.placed, by rw [hsame'.totalPages]; exact h.small,
      fun {r₁ r₂ v₁ v₂ d₁ d₂ m'} hr₁ hr₂ hd₁ hd₂ hm₁ hm₂ => ?_, fun {r' v' d' m'} hr' hd' hm' => ?_⟩,
    by rw [hfree]; exact Finset.erase_subset _ _, fun hr' hd' hm' => hkept hr' _ hd' _ hm',
    fun hr' hd' hm' => ?_, fun {r' v'} hr' hp' d' hd' m' hm' => ?_, fun {r' j} hr' => ?_⟩, hthere⟩
  · rcases hcases hr₁ d₁ hd₁ m' hm₁ with h₁ | ⟨rfl, e₁⟩
    · rcases hcases hr₂ d₂ hd₂ m' hm₂ with h₂ | ⟨rfl, -⟩
      · exact h.typed hr₁ hr₂ hd₁ hd₂ h₁ h₂
      · exact absurd hp (h.used hr₁ hd₁ h₁).1
    · rcases hcases hr₂ d₂ hd₂ m' hm₂ with h₂ | ⟨-, e₂⟩
      · exact absurd hp (h.used hr₂ hd₂ h₂).1
      · exact e₁.trans e₂.symm
  · rw [hfree]
    rcases hcases hr' d' hd' m' hm' with hm' | ⟨rfl, -⟩
    · obtain ⟨hnot, hout⟩ := h.used hr' hd' hm'
      exact ⟨fun hin => hnot (Finset.mem_of_mem_erase hin), hsame'.outside.mpr hout⟩
    · exact ⟨Finset.notMem_erase _ _, hsame'.outside.mpr (h.sound.free m' hp).2⟩
  · rcases hcases hr' _ hd' _ hm' with hm' | ⟨rfl, -⟩
    · exact .inl hm'
    · exact .inr hp
  · rcases hcases hr' d' (by omega) m' hm' with hm' | ⟨rfl, -⟩
    · by_cases hself : m' = m ∧ hwIndex (3 - d') v' = i
      · obtain ⟨rfl, hi'⟩ := hself
        rw [hi', hview, Radix.set_self]
        exact hplain _
      · rw [hentry hr' (by omega) hm' _ hself]
        exact hp' d' hd' m' hm'
    · rw [hpentry]
      exact fun h0 => absurd h0 (by decide)
  · have htop : hwTable s.mem r' 0 0 = some r' := rfl
    by_cases hself : r' = m ∧ j = i
    · -- a PML4 is at depth 0 only
      obtain ⟨rfl, rfl⟩ := hself
      obtain rfl := h.typed hr hr' (by omega) (by omega) hm htop
      cases hm
      rw [← hidx] at habs ⊢
      exact .inr (hX (hwNext_absent habs))
    · exact .inl (by rw [hentry hr' (by omega) htop _ hself])

/-! ### The operations -/

variable {space : AddressSpace} {r v : Nat}

/-- **`vmm_map`** on one of the trees, at an address whose walk is plain. -/
theorem Trees.map (hmap : GoodMap memmap) (h : Trees memmap roots s) (hr : roots r) (hplain : PlainTables s.mem r v)
    (hX : hwNext 3 (view s.mem r (hwIndex 3 v)) = none → X r (hwIndex 3 v)) (hroot : space.pml4 = r * pageSize)
    (phys flags : Nat) :
    ∃ b s', vmmMap space v phys flags s = some (b, s') ∧ Deeper memmap roots X s s' := by
  have hdown : ∀ d < 3, ∀ i, i = hwIndex (3 - d) v →
      StepsDown (fun d m t => Deeper memmap roots X s t ∧ hwTable t.mem r v d = some m) (fun _ => True) true
        (pageWrite ||| pageUser) d i := by
    rintro d hd _ rfl m t ⟨hg, hm⟩
    have hi := hwIndex_lt (3 - d) v
    by_cases hpres : view t.mem m (hwIndex (3 - d) v) % 2 = 1
    · obtain ⟨hflags, heven⟩ := flags_cases (pageWrite ||| pageUser)
      have hstep : Deeper memmap roots X t _ := hg.trees.flags hr (by omega) hm hi hflags heven
      refine .inr ⟨_, _, nextLevel_present hi hpres, hg.trans hstep, ?_⟩
      rw [hwTable_succ (hstep.kept hr (by omega) hm), hwNext_flags t m hi hflags heven,
        hwNext_plain (hg.plain hr hplain d hd m hm), child, if_pos hpres]
    · rcases hg.trees.sound.alloc hmap hg.trees.placed with
        ⟨hrun, -⟩ | ⟨p, t₁, hrun, hp, hp0, haddr, hsound, hsame, hset, hzero, hmem⟩
      · exact .inl ⟨nextLevel_full hi hpres hrun, trivial⟩
      · have hX' : hwNext 3 (view t.mem r (hwIndex 3 v)) = none → X r (hwIndex 3 v) := fun hnone =>
          (hg.top hr).elim (fun e => hX (e.symm.trans hnone)) id
        obtain ⟨hstep, hthere⟩ := hg.trees.grow hr hd hm hpres hX' hp hsound hsame hset hzero hmem
        refine .inr ⟨p, _, ?_, hg.trans hstep, hthere⟩
        rw [nextLevel_new hi hpres hrun (pageAddr_ne hp0 haddr), haddr, clear_clear hzero]
  obtain ⟨h4, h3, h2, h1⟩ := index_pageOf v
  rw [vmmMap, h1]
  rcases withPageTable_run (hdown 0 (by omega) _ h4) (hdown 1 (by omega) _ h3) (hdown 2 (by omega) _ h2) ⟨.refl h, rfl⟩
    hroot false _ with ⟨d, m, s', -, hrun, ⟨hg, -⟩, -⟩ | ⟨pt, s', hrun, hg, hpt⟩
  · exact ⟨false, s', hrun, hg⟩
  · exact ⟨true, _, hrun, hg.trans (hg.trees.leaf hr hpt (hwIndex_lt 0 v) _)⟩

/-- **`vmm_unmap`** on one of the trees. -/
theorem Trees.unmap (h : Trees memmap roots s) (hr : roots r) (hplain : PlainTables s.mem r v)
    (hroot : space.pml4 = r * pageSize) :
    ∃ s', vmmUnmap space v s = some ((), s') ∧ Deeper memmap roots X s s' := by
  rw [vmmUnmap, withPageTable_find hroot, tablePath_pageOf]
  have htable := hwTable_plain s hplain (Nat.le_refl 3)
  cases hw : walkTo s r (tablePath v) with
  | none => exact ⟨s, rfl, .refl h⟩
  | some pt => exact ⟨_, rfl, h.leaf hr (htable.trans hw) (index_lt (pageOf v)).2.2.2 0⟩

/-- The address of a page of a range. -/
def pageAt (virt i : Nat) : Nat := (virt + i * pageSize) % 2 ^ 64

theorem pageAt_succ (virt i : Nat) : pageAt ((virt + pageSize) % 2 ^ 64) i = pageAt virt (i + 1) := by
  simp only [pageAt, pageSize]
  omega

theorem pageAt_zero {virt : Nat} (h : virt < 2 ^ 64) : pageAt virt 0 = virt := by
  rw [pageAt, Nat.zero_mul, Nat.add_zero, Nat.mod_eq_of_lt h]

theorem Trees.unmapRange (hr : roots r) (hroot : space.pml4 = r * pageSize) {virt pages : Nat} (hvirt : virt < 2 ^ 64)
    (h : Trees memmap roots s) (hplain : ∀ i < pages, PlainTables s.mem r (pageAt virt i)) :
    ∃ s', vmmUnmapRange space virt pages s = some ((), s') ∧ Deeper memmap roots X s s' := by
  induction pages generalizing s virt with
  | zero => exact ⟨s, rfl, .refl h⟩
  | succ pages ih =>
      have hfirst := hplain 0 (by omega)
      rw [pageAt_zero hvirt] at hfirst
      obtain ⟨s₁, hr₁, hg₁⟩ := h.unmap (X := X) hr hfirst hroot
      have hrest : ∀ i < pages, PlainTables s₁.mem r (pageAt ((virt + pageSize) % 2 ^ 64) i) := by
        intro i hi
        rw [pageAt_succ]
        exact hg₁.plain hr (hplain (i + 1) (by omega))
      obtain ⟨s₂, hr₂, hg₂⟩ := ih (Nat.mod_lt _ (by decide)) hg₁.trees hrest
      refine ⟨s₂, ?_, hg₁.trans hg₂⟩
      rw [vmmUnmapRange, bind_run, hr₁, Option.bind_some]
      exact hr₂

theorem Trees.mapRangeFrom (hmap : GoodMap memmap) (hr : roots r) (hroot : space.pml4 = r * pageSize)
    {virt phys flags pages i : Nat} (hvirt : virt < 2 ^ 64) (h : Trees memmap roots s)
    (hplain : ∀ j < i + pages, PlainTables s.mem r (pageAt virt j))
    (hX : ∀ j < i + pages, hwNext 3 (view s.mem r (hwIndex 3 (pageAt virt j))) = none → X r (hwIndex 3 (pageAt virt j))) :
    ∃ b s', Mem.mapRangeFrom space virt phys flags pages i s = some (b, s') ∧ Deeper memmap roots X s s' := by
  induction pages generalizing s i with
  | zero => exact ⟨true, s, rfl, .refl h⟩
  | succ pages ih =>
      obtain ⟨b, s₁, hr₁, hg₁⟩ := h.map hmap hr (hplain i (by omega)) (hX i (by omega)) hroot
        ((phys + i * pageSize) % 2 ^ 64) flags
      have hr₁ : vmmMap space ((virt + i * pageSize) % 2 ^ 64) ((phys + i * pageSize) % 2 ^ 64) flags s = _ := hr₁
      rw [Mem.mapRangeFrom, bind_run, hr₁, Option.bind_some]
      cases b with
      | true =>
          obtain ⟨b, s₂, hr₂, hg₂⟩ := ih (i := i + 1) hg₁.trees
            (fun j hj => hg₁.plain hr (hplain j (by omega)))
            (fun j hj hnone => (hg₁.top hr).elim (fun e => hX j (by omega) (e.symm.trans hnone)) id)
          exact ⟨b, s₂, hr₂, hg₁.trans hg₂⟩
      | false =>
          have hrest : ∀ j < i, PlainTables s₁.mem r (pageAt virt j) := fun j hj => hg₁.plain hr (hplain j (by omega))
          obtain ⟨s₂, hr₂, hg₂⟩ := hg₁.trees.unmapRange (X := X) hr hroot hvirt hrest
          refine ⟨false, s₂, ?_, hg₁.trans hg₂⟩
          simp only [Bool.false_eq_true, if_false]
          rw [bind_run, hr₂]
          rfl

/-- **`vmm_map_range`**. -/
theorem Trees.mapRange (hmap : GoodMap memmap) (h : Trees memmap roots s) (hr : roots r)
    (hroot : space.pml4 = r * pageSize) {virt pages : Nat} (hvirt : virt < 2 ^ 64)
    (hplain : ∀ j < pages, PlainTables s.mem r (pageAt virt j))
    (hX : ∀ j < pages, hwNext 3 (view s.mem r (hwIndex 3 (pageAt virt j))) = none → X r (hwIndex 3 (pageAt virt j)))
    (phys flags : Nat) :
    ∃ b s', vmmMapRange space virt phys pages flags s = some (b, s') ∧ Deeper memmap roots X s s' :=
  Trees.mapRangeFrom hmap hr hroot hvirt h (fun j hj => hplain j (by omega)) fun j hj => hX j (by omega)

/-- What is done to pages that are no tables does not matter. -/
theorem Trees.aside (h : Trees memmap roots s) (hsound : s'.Sound memmap) (hsame : Pmm.Same s s')
    (hfree : ∀ {r v d m}, roots r → d ≤ 3 → hwTable s.mem r v d = some m → m ∉ s'.freePages)
    (hmem : ∀ {r v d m}, roots r → d ≤ 3 → hwTable s.mem r v d = some m → ∀ a, InPage m a → s'.mem a = s.mem a) :
    Trees memmap roots s' ∧ (∀ {r v d}, roots r → d ≤ 3 → hwTable s'.mem r v d = hwTable s.mem r v d) ∧
      ∀ {r v d m}, roots r → d ≤ 3 → hwTable s.mem r v d = some m → ∀ i, view s'.mem m i = view s.mem m i := by
  have hview : ∀ {r v d m}, roots r → d ≤ 3 → hwTable s.mem r v d = some m → ∀ i, view s'.mem m i = view s.mem m i :=
    fun hr hd hm => view_congr (hmem hr hd hm)
  obtain ⟨htrees, htable⟩ := h.agree hsound hsame hfree fun hr hd hm => by rw [hview hr (by omega) hm]
  exact ⟨htrees, htable, hview⟩

/-- **A new space** has the tables of the kernel's half, and no others. -/
theorem Trees.created (h : Trees memmap roots s) {kernel : AddressSpace} {k f n : Nat} (hk : roots k)
    (hroot : kernel.pml4 = k * pageSize) (hc : Created memmap kernel s f n s') :
    Trees memmap (fun x => roots x ∨ x = n) s' ∧ (∀ {x}, roots x → ∀ i, view s'.mem x i = view s.mem x i) ∧
      (∀ i, 256 ≤ i → view s'.mem n i = view s'.mem k i) ∧
      ∀ {r v d m}, roots r ∨ r = n → d ≤ 3 → hwTable s'.mem r v d = some m →
        m = n ∨ ∃ r, roots r ∧ hwTable s.mem r v d = some m := by
  obtain ⟨hf, hn, -⟩ := hc.pages
  have hfree : s'.freePages ⊆ s.freePages := by
    rw [hc.free]
    exact (Finset.erase_subset _ _).trans (Finset.erase_subset _ _)
  obtain ⟨htrees, htable, hview⟩ := h.aside hc.sound hc.same (fun hr hd hm hin => (h.used hr hd hm).1 (hfree hin))
    fun hr hd hm a ha => by
      obtain ⟨hnot, hout⟩ := h.used hr hd hm
      refine hc.kept a (hout.off ha) (fun hfa => hnot ?_) fun hna => hnot ?_
      · rw [InPage.eq ha hfa]
        exact hf
      · rw [InPage.eq ha hna]
        exact hn
  have hroots : ∀ {x}, roots x → ∀ i, view s'.mem x i = view s.mem x i := by
    intro x hx
    have htop : hwTable s.mem x 0 0 = some x := rfl
    exact hview hx (by omega) htop
  have htop : hwTable s.mem k 0 0 = some k := rfl
  obtain ⟨hkfree, hkout⟩ := h.used hk (by omega) htop
  have hupper : ∀ i, 256 ≤ i → view s'.mem n i = view s'.mem k i := by
    intro i hi
    rw [hc.upper k hroot hkfree hkout i hi, hroots hk]
  -- the walks of the new space are those of the kernel, below its PML4
  have hnew : ∀ {v} d m, hwTable s'.mem n v d = some m → m = n ∧ d = 0 ∨ 0 < d ∧ hwTable s'.mem k v d = some m := by
    intro v d
    induction d with
    | zero =>
        intro m hm
        cases hm
        exact .inl ⟨rfl, rfl⟩
    | succ d ih =>
        intro m hm
        obtain ⟨m₀, hm₀⟩ := Option.isSome_iff_exists.mp (hwTable_above (d := d) (k := d + 1) (by rw [hm]; rfl) (by omega))
        rw [hwTable_succ hm₀] at hm
        rcases ih m₀ hm₀ with ⟨rfl, rfl⟩ | ⟨-, hm₀⟩
        · refine .inr ⟨by omega, ?_⟩
          have hk₀ : hwTable s'.mem k v 0 = some k := rfl
          by_cases hi : hwIndex (3 - 0) v < 256
          · rw [hc.lower _ hi] at hm
            cases hm
          · rw [hupper _ (by omega)] at hm
            rw [hwTable_succ hk₀]
            exact hm
        · exact .inr ⟨by omega, (hwTable_succ hm₀).trans hm⟩
  have hold : ∀ {r v d m}, roots r → d ≤ 3 → hwTable s'.mem r v d = some m → m ≠ n := by
    rintro r v d m hr hd hm rfl
    rw [htable hr hd] at hm
    exact (h.used hr hd hm).1 hn
  have hall : ∀ {r v d m}, roots r ∨ r = n → d ≤ 3 → hwTable s'.mem r v d = some m →
      m = n ∧ d = 0 ∨ ∃ r, roots r ∧ hwTable s'.mem r v d = some m := by
    intro r v d m hr hd hm
    rcases hr with hr | hr
    · exact .inr ⟨r, hr, hm⟩
    · rw [hr] at hm
      rcases hnew d m hm with hm | ⟨-, hm⟩
      · exact .inl hm
      · exact .inr ⟨k, hk, hm⟩
  refine ⟨⟨hc.sound, htrees.placed, htrees.small, fun hr hr' hd hd' hm hm' => ?_, fun hr hd hm => ?_⟩, hroots, hupper,
    fun hr hd hm => ?_⟩
  · rcases hall hr hd hm with ⟨e, h0⟩ | ⟨x, hx, hm⟩
    · rcases hall hr' hd' hm' with ⟨-, h0'⟩ | ⟨y, hy, hm'⟩
      · rw [h0, h0']
      · exact absurd e (hold hy hd' hm')
    · rcases hall hr' hd' hm' with ⟨e, -⟩ | ⟨y, hy, hm'⟩
      · exact absurd e (hold hx hd hm)
      · exact htrees.typed hx hy hd hd' hm hm'
  · rcases hall hr hd hm with ⟨e, -⟩ | ⟨x, hx, hm⟩
    · rw [e, hc.free]
      exact ⟨Finset.notMem_erase _ _, hc.same.outside.mpr (h.sound.free n hn).2⟩
    · exact htrees.used hx hd hm
  · rcases hall hr hd hm with ⟨e, -⟩ | ⟨x, hx, hm⟩
    · exact .inl e
    · exact .inr ⟨x, hx, (htable hx hd).symm.trans hm⟩

end Trees

end Blackmount.Mem
