import Blackmount.Mem.Create
import Blackmount.Mem.Trees
import Blackmount.Mem.UserRoundTrip

/-!
# Mem — operations that fail

What `vmm_map_range`, `vmm_alloc_page`, `vmm_alloc_pages`, `vmm_map_contiguous` and `vmm_create_address_space` leave behind
when they report a failure.

* `lacks`, `needed`: the tables that a page, or the first pages of a range, have yet to get.
* `vmmMap_exact`: `vmm_map` fails exactly when these are more than the free pages.
* `mapRangeFrom_exact`: the same for a range, and what the rollback leaves.
* `fails_cleanly_iff`: when a failed operation has left all translations and frames as they were.
-/

namespace Blackmount.Mem
open Blackmount.Lib

section Adds

variable {R : Type} {memmap : List MemmapEntry} {root : R → Nat} {S : R → List Nat → Prop} {s s' s'' : Pmm} {r : R}
  {P Q : Finset (List Nat)}

/-! ### Tables that are added -/

variable (memmap root S r P) in
/-- Exactly the tables at the ends of the paths `P` were added, each in a page that was free. -/
structure Adds (s s' : Pmm) : Prop where
  same : Pmm.Same s s'
  tables : Tables memmap root S s'
  kept : ∀ {r p n}, S r p → walkTo s (root r) p = some n → walkTo s' (root r) p = some n
  fresh : ∀ p ∈ P, S r p ∧ walkTo s (root r) p = none
  here : ∀ {r' p}, S r' p → (walkTo s' (root r') p ≠ none ↔ walkTo s (root r') p ≠ none ∨ r' = r ∧ p ∈ P)
  reached : ∀ n, IsTable s' root S n → IsTable s root S n ∨ n ∈ s.freePages
  free : s'.freePages ⊆ s.freePages
  card : s'.freePages.card + P.card = s.freePages.card
  leak : ∀ q ∈ s.freePages, q ∈ s'.freePages ∨ IsTable s' root S q

/-- **Counting the tables**: when no more pages were taken than paths came to lead to a table, each page that was taken is
the table of one of these paths, and no other path came to lead to one. -/
theorem adds_of_count (hsame : Pmm.Same s s') (htables : Tables memmap root S s')
    (hkept : ∀ {r p n}, S r p → walkTo s (root r) p = some n → walkTo s' (root r) p = some n)
    (hreached : ∀ n, IsTable s' root S n → IsTable s root S n ∨ n ∈ s.freePages) (hfree : s'.freePages ⊆ s.freePages)
    (hcount : s.freePages.card ≤ s'.freePages.card + P.card) (hfresh : ∀ p ∈ P, S r p ∧ walkTo s (root r) p = none)
    (hnow : ∀ p ∈ P, walkTo s' (root r) p ≠ none) : Adds memmap root S r P s s' := by
  -- a table on a path that led nowhere is a page that was free
  have hnew : ∀ {r' p n}, S r' p → walkTo s (root r') p = none → walkTo s' (root r') p = some n →
      n ∈ s.freePages \ s'.freePages := by
    intro r' p n hp hnone hn
    have htable : IsTable s' root S n := ⟨r', p, hp, hn⟩
    rw [Finset.mem_sdiff]
    refine ⟨(hreached n htable).resolve_left ?_, (htables.used n htable).1⟩
    rintro ⟨r₁, p₁, hp₁, hw⟩
    obtain ⟨rfl, rfl⟩ := htables.forest.inj hp₁ hp (hkept hp₁ hw) hn
    cases hnone.symm.trans hw
  let table : List Nat → Nat := fun p => (walkTo s' (root r) p).getD 0
  have htable : ∀ p ∈ P, walkTo s' (root r) p = some (table p) := by
    intro p hp
    obtain ⟨n, hn⟩ := Option.ne_none_iff_exists'.mp (hnow p hp)
    simp only [table, hn, Option.getD_some]
  have hinj : Set.InjOn table P := by
    intro p hp q hq hpq
    have hw := htable q hq
    rw [← hpq] at hw
    exact (htables.forest.inj (hfresh p hp).1 (hfresh q hq).1 (htable p hp) hw).2
  have hsub : P.image table ⊆ s.freePages \ s'.freePages := by
    intro n hn
    obtain ⟨p, hp, rfl⟩ := Finset.mem_image.mp hn
    exact hnew (hfresh p hp).1 (hfresh p hp).2 (htable p hp)
  have htaken : (s.freePages \ s'.freePages).card = s.freePages.card - s'.freePages.card := Finset.card_sdiff_of_subset hfree
  have hle := Finset.card_le_card hfree
  have himage : (P.image table).card = P.card := Finset.card_image_of_injOn hinj
  have hall : P.image table = s.freePages \ s'.freePages :=
    Finset.eq_of_subset_of_card_le hsub (by omega)
  have hcard : P.card = s.freePages.card - s'.freePages.card := by
    rw [← himage, hall, htaken]
  refine ⟨hsame, htables, hkept, hfresh, fun {r' p} hp => ⟨fun hw => ?_, ?_⟩, hreached, hfree, by omega, fun q hq => ?_⟩
  · by_cases hold : walkTo s (root r') p = none
    · obtain ⟨n, hn⟩ := Option.ne_none_iff_exists'.mp hw
      have hmem := hnew hp hold hn
      rw [← hall] at hmem
      obtain ⟨p₀, hp₀, rfl⟩ := Finset.mem_image.mp hmem
      obtain ⟨rfl, rfl⟩ := htables.forest.inj hp (hfresh p₀ hp₀).1 hn (htable p₀ hp₀)
      exact .inr ⟨rfl, hp₀⟩
    · exact .inl hold
  · rintro (hold | ⟨rfl, hmem⟩)
    · obtain ⟨n, hn⟩ := Option.ne_none_iff_exists'.mp hold
      rw [hkept hp hn]
      exact Option.some_ne_none n
    · exact hnow p hmem
  · by_cases hin : q ∈ s'.freePages
    · exact .inl hin
    · have hmem := Finset.mem_sdiff.mpr ⟨hq, hin⟩
      rw [← hall] at hmem
      obtain ⟨p, hp, rfl⟩ := Finset.mem_image.mp hmem
      exact .inr ⟨r, p, (hfresh p hp).1, htable p hp⟩

theorem Adds.refl (h : Tables memmap root S s) : Adds memmap root S r ∅ s s :=
  ⟨.refl s, h, fun _ hw => hw, fun p hp => absurd hp (Finset.notMem_empty p), fun _ => by simp, fun _ hn => .inl hn,
    Finset.Subset.refl _, rfl, fun _ hq => .inl hq⟩

theorem Adds.trans [DecidableEq (List Nat)] (h : Adds memmap root S r P s s') (h' : Adds memmap root S r Q s' s'') :
    Adds memmap root S r (P ∪ Q) s s'' := by
  have hdisjoint : Disjoint P Q := by
    refine Finset.disjoint_left.mpr fun p hp hq => ?_
    exact (h.here (h.fresh p hp).1).mpr (.inr ⟨rfl, hp⟩) (h'.fresh p hq).2
  have hcard := h.card
  have hcard' := h'.card
  refine ⟨h.same.trans h'.same, h'.tables, fun hp hw => h'.kept hp (h.kept hp hw), fun p hp => ?_, fun {r' p} hp => ?_,
    fun n hn => ?_, h'.free.trans h.free, by rw [Finset.card_union_of_disjoint hdisjoint]; omega, fun q hq => ?_⟩
  · rcases Finset.mem_union.mp hp with hp | hp
    · exact h.fresh p hp
    · refine ⟨(h'.fresh p hp).1, ?_⟩
      by_contra hne
      exact (h.here (h'.fresh p hp).1).mpr (.inl hne) (h'.fresh p hp).2
  · rw [h'.here hp, h.here hp, Finset.mem_union, and_or_left, or_assoc]
  · rcases h'.reached n hn with hn | hn
    · exact h.reached n hn
    · exact .inr (h.free hn)
  · rcases h.leak q hq with hq | ⟨r', p, hp, hw⟩
    · exact h'.leak q hq
    · exact .inr ⟨r', p, hp, h'.kept hp hw⟩

end Adds

/-! ### One page -/

/-- The first `d` tables on the way to a page, as paths. -/
def tablePaths (virt d : Nat) : Finset (List Nat) := ((List.range d).map fun e => (tablePath virt).take (e + 1)).toFinset

/-- Those of them that are missing. -/
def lacksBelow (s : Pmm) (n virt d : Nat) : Finset (List Nat) := (tablePaths virt d).filter fun p => walkTo s n p = none

/-- The tables on the way to a page that are missing. -/
abbrev lacks (s : Pmm) (n virt : Nat) : Finset (List Nat) := lacksBelow s n virt 3

theorem mem_tablePaths {virt d : Nat} {p : List Nat} :
    p ∈ tablePaths virt d ↔ ∃ e < d, p = (tablePath virt).take (e + 1) := by
  simp only [tablePaths, List.mem_toFinset, List.mem_map, List.mem_range, eq_comm]

theorem tablePaths_succ (virt d : Nat) : tablePaths virt (d + 1) = insert ((tablePath virt).take (d + 1)) (tablePaths virt d) := by
  ext p
  rw [Finset.mem_insert, mem_tablePaths, mem_tablePaths]
  constructor
  · rintro ⟨e, he, rfl⟩
    by_cases hd : e = d
    · exact .inl (by rw [hd])
    · exact .inr ⟨e, by omega, rfl⟩
  · rintro (rfl | ⟨e, he, rfl⟩)
    · exact ⟨d, by omega, rfl⟩
    · exact ⟨e, by omega, rfl⟩

section Page

variable {R : Type} {memmap : List MemmapEntry} {root : R → Nat} {S : R → List Nat → Prop} {s s' : Pmm} {r : R}
  {space : AddressSpace} {virt : Nat}

theorem take_notMem {virt d : Nat} (hd : d < 3) : (tablePath virt).take (d + 1) ∉ tablePaths virt d := by
  rintro h
  obtain ⟨e, he, heq⟩ := mem_tablePaths.mp h
  have hlen := congrArg List.length heq
  rw [List.length_take, List.length_take] at hlen
  simp only [tablePath, List.length_cons, List.length_nil] at hlen
  omega

/-- One more table on the way. -/
theorem lacksBelow_succ {n virt d : Nat} (hd : d < 3) : (lacksBelow s n virt (d + 1)).card =
    (lacksBelow s n virt d).card + if walkTo s n ((tablePath virt).take (d + 1)) = none then 1 else 0 := by
  rw [lacksBelow, tablePaths_succ, Finset.filter_insert]
  split
  · rw [Finset.card_insert_of_notMem fun h => take_notMem hd (Finset.mem_filter.mp h).1]
    rfl
  · rfl

/-- A walk to a table goes through the tables before it. -/
theorem walk_take {n d e m : Nat} (hde : e ≤ d) (hw : walkTo s n ((tablePath virt).take d) = some m) :
    walkTo s n ((tablePath virt).take e) ≠ none := by
  intro hnone
  have hsplit : (tablePath virt).take d = (tablePath virt).take e ++ ((tablePath virt).take d).drop e := by
    have := (List.take_append_drop e ((tablePath virt).take d)).symm
    rwa [List.take_take, Nat.min_eq_left hde] at this
  rw [hsplit, walkTo, Radix.walk_append, show Radix.walk child (view s.mem) n ((tablePath virt).take e) = none from hnone] at hw
  cases hw

theorem Covers.take (hc : Covers S r virt) {d : Nat} (hd : d ≤ 3) : S r ((tablePath virt).take d) := by
  obtain ⟨hS₀, hS₁, hS₂, hS₃⟩ := hc.tables
  have hcases : d = 0 ∨ d = 1 ∨ d = 2 ∨ d = 3 := by omega
  rcases hcases with rfl | rfl | rfl | rfl
  · exact hS₀
  · exact hS₁
  · exact hS₂
  · exact hS₃

/-- The tables on the way that were missing are there. -/
theorem Grown.adds {d m : Nat} (h : Grown memmap root S (lacksBelow s (root r) virt d).card s s') (hc : Covers S r virt)
    (hd : d ≤ 3) (hw : walkTo s' (root r) ((tablePath virt).take d) = some m) :
    Adds memmap root S r (lacksBelow s (root r) virt d) s s' := by
  refine adds_of_count h.same h.tables h.kept h.reached h.free h.count (fun p hp => ?_) fun p hp => ?_
  · obtain ⟨hp, hnone⟩ := Finset.mem_filter.mp hp
    obtain ⟨e, he, rfl⟩ := mem_tablePaths.mp hp
    exact ⟨hc.take (by omega), hnone⟩
  · obtain ⟨e, he, rfl⟩ := mem_tablePaths.mp (Finset.mem_filter.mp hp).1
    exact walk_take (by omega) hw

/-- **The walk that creates what is missing** takes as many pages as tables are missing, and fails exactly when there are
not so many. -/
theorem withPageTable_exact {α : Type} (hmap : GoodMap memmap) (h : Tables memmap root S s) (hc : Covers S r virt)
    (hroot : space.pml4 = root r * pageSize) (fail : α) (k : Nat → VmmM α) {flags : Nat} (hflags : flags < pageSize) :
    (∃ P s', Mem.withPageTable space virt true flags fail k s = some (fail, s') ∧ Adds memmap root S r P s s' ∧
        (∀ {r p j}, S r p → ¬ S r (p ++ [j]) → walkTo s' (root r) (p ++ [j]) = walkTo s (root r) (p ++ [j])) ∧
        s.freePages.card < (lacks s (root r) virt).card) ∨
      ∃ pt s', Mem.withPageTable space virt true flags fail k s = k (pt * pageSize) s' ∧
        Grown memmap root S (lacks s (root r) virt).card s s' ∧ walkTo s' (root r) (tablePath virt) = some pt := by
  obtain ⟨h4, h3, h2, -⟩ := index_lt virt
  have hflagsLt : flags &&& (pageUser ||| pageWrite) < pageSize := Nat.lt_of_le_of_lt Nat.and_le_right (by decide)
  have heven : (flags &&& (pageUser ||| pageWrite)) % 2 = 0 := by
    have := Nat.and_mod_two_pow (a := flags) (b := pageUser ||| pageWrite) (n := 1)
    rw [Nat.pow_one] at this
    rw [this, show (pageUser ||| pageWrite) % 2 = 0 from rfl, Nat.and_zero]
  -- at depth `d`, the tables missing among the first `d` were made
  have hdown : ∀ {d i}, d < 3 → i < 512 → (tablePath virt).take (d + 1) = (tablePath virt).take d ++ [i] →
      StepsDown (fun d m t => Grown memmap root S (lacksBelow s (root r) virt d).card s t ∧
          walkTo t (root r) ((tablePath virt).take d) = some m)
        (fun t => t.freePages = ∅ ∧ walkTo t (root r) (tablePath virt) = none) true flags d i := by
    intro d i hd hi htake m t ⟨hg, hw⟩
    have hq := hc.take (show d ≤ 3 by omega)
    have hin := hc.take (show d + 1 ≤ 3 by omega)
    have hcount := @lacksBelow_succ s (root r) virt d hd
    have hnext : walkTo t (root r) ((tablePath virt).take (d + 1)) = child (view t.mem m i) := by
      rw [htake, walkTo, Radix.walk_concat, show Radix.walk child (view t.mem) (root r) _ = some m from hw, Option.bind_some]
    by_cases hpres : view t.mem m i % 2 = 1
    · -- it was there before
      have hold : walkTo s (root r) ((tablePath virt).take (d + 1)) ≠ none := by
        refine (((hg.adds hc (by omega) hw).here hin).mp ?_).resolve_right fun hnew => ?_
        · rw [hnext, child, if_pos hpres]
          exact Option.some_ne_none _
        · exact take_notMem hd (Finset.mem_filter.mp hnew.2).1
      rw [if_neg hold, Nat.add_zero] at hcount
      have hsame := hg.tables.flags ⟨r, _, hq, hw⟩ hi (or_lt (view_lt t.mem m i) hflagsLt) (child_or hflagsLt heven)
      refine .inr ⟨_, _, nextLevel_present hi hpres, by rw [hcount]; exact hg.trans hsame, ?_⟩
      rw [htake, walkTo, Radix.walk_concat, show Radix.walk child _ (root r) _ = some m from hsame.kept hq hw, Option.bind_some,
        view_wrote t m hi (or_lt (view_lt t.mem m i) hflagsLt), Radix.set_self, child_or hflagsLt heven, child, if_pos hpres]
    · have hmissing : walkTo t (root r) ((tablePath virt).take (d + 1)) = none := by rw [hnext, child, if_neg hpres]
      have hold : walkTo s (root r) ((tablePath virt).take (d + 1)) = none := by
        by_contra hne
        obtain ⟨x, hx⟩ := Option.ne_none_iff_exists'.mp hne
        cases hmissing.symm.trans (hg.kept hin hx)
      rw [if_pos hold] at hcount
      rw [htake] at hin
      rcases hg.tables.nextLevel hmap hq hin hw hi hflags with ⟨hr, hempty⟩ | ⟨c, t', hr, hg', hw'⟩
      · refine .inl ⟨hr, hempty, ?_⟩
        by_contra hne
        obtain ⟨x, hx⟩ := Option.ne_none_iff_exists'.mp hne
        have hx : walkTo t (root r) ((tablePath virt).take 3) = some x := hx
        exact walk_take (by omega) hx hmissing
      · refine .inr ⟨c, t', hr, by rw [hcount]; exact hg.trans hg', ?_⟩
        rw [htake]
        exact hw'
  have hstart : Grown memmap root S (lacksBelow s (root r) virt 0).card s s := Grown.refl h
  rcases withPageTable_run (hdown (by omega) h4 rfl) (hdown (by omega) h3 rfl) (hdown (by omega) h2 rfl) ⟨hstart, rfl⟩ hroot
    fail k with ⟨d, m, s', hd, hr, ⟨hg, hw⟩, hempty, hmissing⟩ | ⟨pt, s', hr, hg, hw⟩
  · refine .inl ⟨_, s', hr, hg.adds hc (by omega) hw, hg.last, ?_⟩
    have hcount := hg.count
    rw [hempty, Finset.card_empty, Nat.zero_add] at hcount
    refine Nat.lt_of_le_of_lt hcount (Finset.card_lt_card ((Finset.ssubset_iff_of_subset fun p hp => ?_).mpr
      ⟨tablePath virt, Finset.mem_filter.mpr ⟨mem_tablePaths.mpr ⟨2, by omega, rfl⟩, ?_⟩, fun hin => ?_⟩))
    · obtain ⟨hp, hnone⟩ := Finset.mem_filter.mp hp
      obtain ⟨e, he, rfl⟩ := mem_tablePaths.mp hp
      exact Finset.mem_filter.mpr ⟨mem_tablePaths.mpr ⟨e, by omega, rfl⟩, hnone⟩
    · by_contra hne
      obtain ⟨x, hx⟩ := Option.ne_none_iff_exists'.mp hne
      cases hmissing.symm.trans (hg.kept hc.tables.2.2.2 hx)
    · obtain ⟨e, he, heq⟩ := mem_tablePaths.mp (Finset.mem_filter.mp hin).1
      have hlen := congrArg List.length heq
      rw [List.length_take] at hlen
      simp only [tablePath, List.length_cons, List.length_nil] at hlen
      omega
  · exact .inr ⟨pt, s', hr, hg, hw⟩

/-- The page frame that an address is translated to. -/
def leaf (s : Pmm) (n virt : Nat) : Option Nat := walkTo s n (tablePath virt ++ [ptIndex virt])

/-- Addresses with the same entry. -/
def SameEntry (v w : Nat) : Prop := tablePath v = tablePath w ∧ ptIndex v = ptIndex w

theorem SameEntry.leaf_eq {v w n : Nat} (h : SameEntry v w) : leaf s n v = leaf s n w := by
  rw [leaf, leaf, h.1, h.2]

/-- What a write to the entry of `virt` leaves of the other translations. -/
theorem Remaps.leaf_other {k v : Nat} {x : Option Nat} {r' : R} (h : Remaps memmap root S k r (tablePath virt) (ptIndex virt) x s s')
    (hv : Covers S r' v) (hne : ¬ (r' = r ∧ SameEntry v virt)) : leaf s' (root r') v = leaf s (root r') v :=
  h.last hv.tables.2.2.2 hv.page fun e => hne ⟨e.1, e.2.1, e.2.2⟩

/-- **`vmm_map`** fails exactly when more tables are missing than pages are free. -/
theorem vmmMap_exact (hmap : GoodMap memmap) (h : Tables memmap root S s) (hc : Covers S r virt)
    (hroot : space.pml4 = root r * pageSize) {phys flags : Nat} (hphys : phys < 2 ^ 64) (hflags : flags < 2 ^ 64) :
    (∃ P s', vmmMap space virt phys flags s = some (false, s') ∧ Adds memmap root S r P s s' ∧
        (∀ {r' v}, Covers S r' v → leaf s' (root r') v = leaf s (root r') v) ∧
        s.freePages.card < (lacks s (root r) virt).card) ∨
      ∃ s', vmmMap space virt phys flags s = some (true, s') ∧ Adds memmap root S r (lacks s (root r) virt) s s' ∧
        ∀ {r' v}, Covers S r' v → ¬ (r' = r ∧ SameEntry v virt) → leaf s' (root r') v = leaf s (root r') v := by
  obtain ⟨-, -, -, h1⟩ := index_lt virt
  have hwalk : pageWrite ||| pageUser < pageSize := by decide
  have hlacks : lacks s (root r) (pageOf virt) = lacks s (root r) virt := by
    rw [lacks, lacksBelow, tablePaths, tablePath_pageOf]
    rfl
  rcases withPageTable_exact hmap h hc.pageOf hroot false _ hwalk with ⟨P, s', hr, hadds, hlast, hfew⟩ | ⟨pt, s', hr, hg, hw⟩
  · rw [hlacks] at hfew
    exact .inl ⟨P, s', hr, hadds, fun hv => hlast hv.tables.2.2.2 hv.page, hfew⟩
  · right
    rw [hlacks] at hg
    rw [tablePath_pageOf] at hw
    have hsmall : pteCreate phys (flags ||| pagePresent) < 2 ^ 64 := by
      rw [pteCreate]
      refine Nat.or_lt_two_pow ?_ (Nat.or_lt_two_pow hflags (by decide))
      simp only [pageSize]
      omega
    have hremap := hg.tables.remap (e := pteCreate phys (flags ||| pagePresent)) hc.tables.2.2.2 hc.page hw h1 hsmall
    have hall := hg.remaps hremap
    refine ⟨_, ?_, adds_of_count hall.same hall.tables hall.kept hall.reached hall.free hall.count (fun p hp => ?_) fun p hp => ?_,
      fun hv hne => hall.leaf_other hv hne⟩
    · rw [vmmMap, hr, (index_pageOf virt).2.2.2]
      rfl
    · obtain ⟨hp, hnone⟩ := Finset.mem_filter.mp hp
      obtain ⟨e, he, rfl⟩ := mem_tablePaths.mp hp
      exact ⟨hc.take (by omega), hnone⟩
    · obtain ⟨e, he, rfl⟩ := mem_tablePaths.mp (Finset.mem_filter.mp hp).1
      have hw' := hremap.kept hc.tables.2.2.2 hw
      exact walk_take (d := 3) (by omega) hw'

end Page

/-! ### Ranges -/

section Range

variable {R : Type} {memmap : List MemmapEntry} {root : R → Nat} {S : R → List Nat → Prop} {s s' s₀ : Pmm} {r : R}
  {space : AddressSpace} {virt : Nat}

theorem vmmUnmap_adds (h : Tables memmap root S s) (hc : Covers S r virt) (hroot : space.pml4 = root r * pageSize) :
    ∃ s', vmmUnmap space virt s = some ((), s') ∧ Adds memmap root S r ∅ s s' ∧ leaf s' (root r) virt = none ∧
      ∀ {r' v}, Covers S r' v → ¬ (r' = r ∧ SameEntry v virt) → leaf s' (root r') v = leaf s (root r') v := by
  obtain ⟨s', hrun, hm⟩ := vmmUnmap_spec h hc hroot
  exact ⟨s', hrun, adds_of_count hm.same hm.tables hm.kept hm.reached hm.free hm.count (fun p hp => absurd hp (Finset.notMem_empty p))
    fun p hp => absurd hp (Finset.notMem_empty p), hm.here, fun hv hne => hm.leaf_other hv hne⟩

/-- The first `k` pages of a range. -/
def AmongFirst (virt k v : Nat) : Prop := ∃ j < k, SameEntry v (pageAt virt j)

/-- **The rollback** takes the translations of its pages away. -/
theorem unmapRange_exact (hroot : space.pml4 = root r * pageSize) : ∀ (k virt : Nat) (s : Pmm), virt < 2 ^ 64 →
    Tables memmap root S s → (∀ j < k, Covers S r (pageAt virt j)) →
    ∃ s', vmmUnmapRange space virt k s = some ((), s') ∧ Adds memmap root S r ∅ s s' ∧
      (∀ {v}, Covers S r v → AmongFirst virt k v → leaf s' (root r) v = none) ∧
      ∀ {r' v}, Covers S r' v → ¬ (r' = r ∧ AmongFirst virt k v) → leaf s' (root r') v = leaf s (root r') v := by
  intro k
  induction k with
  | zero =>
      intro virt s _ h _
      exact ⟨s, rfl, .refl h, fun _ ⟨_, hj, _⟩ => absurd hj (Nat.not_lt_zero _), fun _ _ => rfl⟩
  | succ k ih =>
      intro virt s hvirt h hcov
      have hfirst := hcov 0 (by omega)
      rw [pageAt_zero hvirt] at hfirst
      obtain ⟨s₁, hrun, hadds, hgone, hother⟩ := vmmUnmap_adds h hfirst hroot
      obtain ⟨s₂, hrun₂, hadds₂, hgone₂, hother₂⟩ := ih ((virt + pageSize) % 2 ^ 64) s₁ (Nat.mod_lt _ (by decide)) hadds.tables
        fun j hj => by
          rw [pageAt_succ]
          exact hcov (j + 1) (by omega)
      have hamong : ∀ {v}, AmongFirst virt (k + 1) v ↔ SameEntry v virt ∨ AmongFirst ((virt + pageSize) % 2 ^ 64) k v := by
        intro v
        constructor
        · rintro ⟨j, hj, hsame⟩
          cases j with
          | zero => exact .inl (by rwa [pageAt_zero hvirt] at hsame)
          | succ j => exact .inr ⟨j, by omega, by rwa [pageAt_succ]⟩
        · rintro (hsame | ⟨j, hj, hsame⟩)
          · exact ⟨0, by omega, by rwa [pageAt_zero hvirt]⟩
          · exact ⟨j + 1, by omega, by rwa [pageAt_succ] at hsame⟩
      refine ⟨s₂, ?_, ?_, fun {v} hv hin => ?_, fun {r' v} hv hout => ?_⟩
      · rw [vmmUnmapRange, bind_run, hrun]
        exact hrun₂
      · have := hadds.trans hadds₂
        rwa [Finset.empty_union] at this
      · by_cases hrest : AmongFirst ((virt + pageSize) % 2 ^ 64) k v
        · exact hgone₂ hv hrest
        · have hsame := (hamong.mp hin).resolve_right hrest
          rw [hother₂ hv fun e => hrest e.2, hsame.leaf_eq]
          exact hgone
      · rw [hother₂ hv fun e => hout ⟨e.1, hamong.mpr (.inr e.2)⟩, hother hv fun e => hout ⟨e.1, hamong.mpr (.inl e.2)⟩]

/-- The tables that the first `k` pages of a range have yet to get. -/
def needed (s : Pmm) (n virt k : Nat) : Finset (List Nat) := (Finset.range k).biUnion fun j => lacks s n (pageAt virt j)

theorem needed_mono {n virt k k' : Nat} (h : k ≤ k') : needed s n virt k ⊆ needed s n virt k' :=
  Finset.biUnion_subset_biUnion_of_subset_left _ (Finset.range_mono h)

/-- When the tables of the first pages were made, the next page lacks what they did not give it. -/
theorem Adds.needed_succ {k : Nat} (h : Adds memmap root S r (needed s₀ (root r) virt k) s₀ s)
    (hc : Covers S r (pageAt virt k)) :
    needed s₀ (root r) virt k ∪ lacks s (root r) (pageAt virt k) = needed s₀ (root r) virt (k + 1) := by
  ext p
  rw [needed, needed, Finset.range_add_one, Finset.biUnion_insert, ← needed, Finset.mem_union, Finset.mem_union, or_comm]
  have hlack : ∀ {e}, e < 3 → (walkTo s (root r) ((tablePath (pageAt virt k)).take (e + 1)) = none ↔
      walkTo s₀ (root r) ((tablePath (pageAt virt k)).take (e + 1)) = none ∧
        (tablePath (pageAt virt k)).take (e + 1) ∉ needed s₀ (root r) virt k) := by
    intro e he
    have := @Adds.here _ _ _ _ _ _ _ _ h r _ (hc.take (show e + 1 ≤ 3 by omega))
    rw [← not_iff_not, ← ne_eq, this, not_and_or, not_not, ← ne_eq]
    simp only [true_and]
  constructor
  · rintro (hp | hp)
    · obtain ⟨hp, hnone⟩ := Finset.mem_filter.mp hp
      obtain ⟨e, he, rfl⟩ := mem_tablePaths.mp hp
      exact .inl (Finset.mem_filter.mpr ⟨hp, ((hlack he).mp hnone).1⟩)
    · exact .inr hp
  · rintro (hp | hp)
    · obtain ⟨hp, hnone⟩ := Finset.mem_filter.mp hp
      obtain ⟨e, he, rfl⟩ := mem_tablePaths.mp hp
      by_cases hin : (tablePath (pageAt virt k)).take (e + 1) ∈ needed s₀ (root r) virt k
      · exact .inr hin
      · exact .inl (Finset.mem_filter.mpr ⟨hp, (hlack he).mpr ⟨hnone, hin⟩⟩)
    · exact .inr hp

variable (memmap root S r virt) in
/-- A range that could not be mapped from page `k` on: the pages before it have lost their translations. -/
structure RolledBack (k : Nat) (s s' : Pmm) : Prop where
  enough : (needed s (root r) virt k).card ≤ s.freePages.card
  short : s.freePages.card < (needed s (root r) virt (k + 1)).card
  adds : ∃ P, Adds memmap root S r P s s'
  gone : ∀ {v}, Covers S r v → AmongFirst virt k v → leaf s' (root r) v = none
  other : ∀ {r' v}, Covers S r' v → ¬ (r' = r ∧ AmongFirst virt k v) → leaf s' (root r') v = leaf s (root r') v

/-- **`vmm_map_range`** from page `i` on. -/
theorem mapRangeFrom_exact (hmap : GoodMap memmap) (hroot : space.pml4 = root r * pageSize) (hvirt : virt < 2 ^ 64)
    {phys flags : Nat} (hflags : flags < 2 ^ 64) (s₀ : Pmm) : ∀ (pages i : Nat) (s : Pmm),
    (∀ j < i + pages, Covers S r (pageAt virt j)) → Adds memmap root S r (needed s₀ (root r) virt i) s₀ s →
    (∀ {r' v}, Covers S r' v → ¬ (r' = r ∧ AmongFirst virt i v) → leaf s (root r') v = leaf s₀ (root r') v) →
    (∃ s', mapRangeFrom space virt phys flags pages i s = some (true, s') ∧
        Adds memmap root S r (needed s₀ (root r) virt (i + pages)) s₀ s') ∨
      ∃ k s', k < i + pages ∧ mapRangeFrom space virt phys flags pages i s = some (false, s') ∧
        RolledBack memmap root S r virt k s₀ s' := by
  intro pages
  induction pages with
  | zero => exact fun i s _ hadds _ => .inl ⟨s, rfl, hadds⟩
  | succ pages ih =>
      intro i s hcov hadds hother
      have hc := hcov i (by omega)
      rw [mapRangeFrom, bind_run]
      rcases vmmMap_exact hmap hadds.tables hc hroot (show (phys + i * pageSize) % 2 ^ 64 < 2 ^ 64 from Nat.mod_lt _ (by decide))
        hflags with ⟨P, s₁, hrun, hadds₁, hleaf, hfew⟩ | ⟨s₁, hrun, hadds₁, hleaf⟩
      · rw [show vmmMap space ((virt + i * pageSize) % 2 ^ 64) _ flags s = some (false, s₁) from hrun, Option.bind_some]
        simp only [Bool.false_eq_true, if_false]
        obtain ⟨s₂, hback, hadds₂, hgone, hother₂⟩ := unmapRange_exact hroot i virt s₁ hvirt hadds₁.tables fun j hj =>
          hcov j (by omega)
        have hcard := hadds.card
        refine .inr ⟨i, s₂, by omega, by rw [bind_run, hback]; rfl, ⟨by omega, ?_, ⟨_, hadds.trans (hadds₁.trans hadds₂)⟩, hgone,
          fun hv hout => ?_⟩⟩
        · have hdisjoint : Disjoint (needed s₀ (root r) virt i) (lacks s (root r) (pageAt virt i)) := by
            refine Finset.disjoint_left.mpr fun p hp hlack => ?_
            exact (hadds.here (hadds.fresh p hp).1).mpr (.inr ⟨rfl, hp⟩) (Finset.mem_filter.mp hlack).2
          have hfew : s.freePages.card < (lacks s (root r) (pageAt virt i)).card := hfew
          rw [← hadds.needed_succ hc, Finset.card_union_of_disjoint hdisjoint]
          omega
        · rw [hother₂ hv hout, hleaf hv, hother hv hout]
      · rw [show vmmMap space ((virt + i * pageSize) % 2 ^ 64) _ flags s = some (true, s₁) from hrun, Option.bind_some]
        simp only [if_true]
        have hboth := hadds.trans hadds₁
        rw [hadds.needed_succ hc] at hboth
        have hshift : i + (pages + 1) = i + 1 + pages := by omega
        rw [hshift] at hcov ⊢
        refine ih (i + 1) s₁ hcov hboth fun {r' v} hv hout => ?_
        rw [hleaf hv fun e => hout ⟨e.1, i, by omega, e.2⟩, hother hv fun e => hout ⟨e.1, ?_⟩]
        obtain ⟨j, hj, hsame⟩ := e.2
        exact ⟨j, by omega, hsame⟩

end Range

/-! ### Frames -/

section Frames

variable {R : Type} {memmap : List MemmapEntry} {root : R → Nat} {S : R → List Nat → Prop} {s s' : Pmm} {r : R}
  {space : AddressSpace} {virt : Nat}

/-- **`pmm_alloc_pages`** beside the tables. -/
theorem Tables.takeFrames (hmap : GoodMap memmap) (h : Tables memmap root S s) {n p : Nat} (hrun : FreeRun s.isFree n s.totalPages p)
    (hs' : s' = (s.takeRun p n).clear (p * pageSize) (n * pageSize)) :
    Tables memmap root S s' ∧ Pmm.Same s s' ∧ s'.freePages = s.freePages \ Finset.Ico p (p + n) ∧
      (∀ {r q}, S r q → walkTo s' (root r) q = walkTo s (root r) q) ∧
      ∀ {r v}, Covers S r v → leaf s' (root r) v = leaf s (root r) v := by
  subst hs'
  obtain ⟨hsound, hsame, hset⟩ := h.sound.allocates h.placed hrun
  obtain ⟨-, -, -, hmem⟩ := h.sound.allocRun hmap h.placed hrun
  have hview : ∀ x, IsTable s root S x → ∀ i, view ((s.takeRun p n).clear (p * pageSize) (n * pageSize)).mem x i = view s.mem x i := by
    intro x hx
    obtain ⟨hnot, hout⟩ := h.used x hx
    refine view_congr fun a ha => hmem a (fun hin => hnot ?_) (hout.off ha)
    -- a page of the run is free, and a table is not
    have hpage : p ≤ x ∧ x < p + n := by
      simp only [pageSize] at ha hin
      omega
    have := Pmm.Sound.run_free h.placed hrun (j := x - p) (by omega)
    rwa [show p + (x - p) = x by omega] at this
  obtain ⟨htables, hwalk, hleaf⟩ := h.aside hsound hsame (fun x hx hin => (h.used x hx).1 (by
    rw [hset] at hin
    exact (Finset.mem_sdiff.mp hin).1)) hview
  exact ⟨htables, hsame, hset, hwalk _ _, fun hv => hleaf hv.tables.2.2.2⟩

/-- The loop of `pmm_free_pages` frees its pages, and writes to nothing but the bitmap. -/
theorem freeLoop_exact : ∀ {l : List Nat} {s : Pmm}, s.Sound memmap → s.bitmap ≠ 0 →
    (∀ q ∈ l, q ≠ 0 ∧ q < s.totalPages ∧ UsablePage memmap q ∧ s.Outside q) →
    ∃ s', l.foldlM Pmm.freePage s = some s' ∧ s'.Sound memmap ∧ Pmm.Same s s' ∧ s'.freePages = s.freePages ∪ l.toFinset ∧
      ∀ a, s.OffBitmap a → s'.mem a = s.mem a := by
  intro l
  induction l with
  | nil => exact fun {s} h _ _ => ⟨s, rfl, h, .refl s, by simp, fun _ _ => rfl⟩
  | cons q l ih =>
      intro s h hb hl
      obtain ⟨hq0, hlt, huse, hout⟩ := hl q List.mem_cons_self
      have h52 := h.sized.total
      obtain ⟨s₁, hfree, hsound, hsame, hset, hmem⟩ := h.release hb hq0 (by omega) (fun _ => ⟨huse, hout⟩) (show 0 < pageSize by decide)
      have hstep : s.freePage q = some s₁ := by
        have haddr : (UInt64.ofNat (q * pageSize + 0)).toNat = q * pageSize := by
          rw [UInt64.toNat_ofNat', Nat.add_zero]
          simp only [pageSize]
          omega
        have hne : UInt64.ofNat (q * pageSize + 0) ≠ 0 := by
          intro e
          rw [e] at haddr
          exact Nat.mul_ne_zero hq0 (by decide) haddr.symm
        rwa [pmmFree, if_neg hne, haddr, Nat.mul_div_cancel _ (by decide)] at hfree
      obtain ⟨s₂, hrest, hsound₂, hsame₂, hset₂, hmem₂⟩ := ih hsound (by rw [hsame.bitmap]; exact hb) fun x hx => by
        obtain ⟨h₁, h₂, h₃, h₄⟩ := hl x (List.mem_cons_of_mem q hx)
        exact ⟨h₁, by rw [hsame.totalPages]; exact h₂, h₃, hsame.outside.mpr h₄⟩
      refine ⟨s₂, by rw [List.foldlM_cons, hstep]; exact hrest, hsound₂, hsame.trans hsame₂, ?_, fun a ha => ?_⟩
      · rw [hset₂, hset, if_pos hlt, List.toFinset_cons, Finset.insert_union, Finset.union_insert]
      · rw [hmem₂ a (hsame.offBitmap.mpr ha), hmem a ha]

theorem freedPages_run {p n : Nat} {count : UInt64} (hcount : count.toNat = n) (haddr : (pageAddr p).toNat = p * pageSize)
    (hlt : p + n < 2 ^ 64) : freedPages (pageAddr p) count = (List.range n).map fun i => p + i := by
  rw [freedPages, hcount, haddr, Nat.mul_div_cancel _ (by decide)]
  refine List.map_congr_left fun i hi => ?_
  have hi := List.mem_range.mp hi
  rw [Nat.mod_eq_of_lt (by omega)]

/-- **`pmm_free_pages`** of pages that are no tables. -/
theorem Tables.giveBack (h : Tables memmap root S s) {n p : Nat} {count : UInt64} (hcount : count.toNat = n)
    (hn : n ≠ 0) (hp0 : p ≠ 0) (haddr : (pageAddr p).toNat = p * pageSize) (hlt : p + n ≤ s.totalPages)
    (hrun : ∀ q, p ≤ q → q < p + n → UsablePage memmap q ∧ s.Outside q ∧ ¬ IsTable s root S q) :
    ∃ s', freeFrames (pageAddr p) count s = some ((), s') ∧ Tables memmap root S s' ∧ Pmm.Same s s' ∧
      s'.freePages = s.freePages ∪ Finset.Ico p (p + n) ∧
      (∀ {r q}, S r q → walkTo s' (root r) q = walkTo s (root r) q) ∧
      ∀ {r v}, Covers S r v → leaf s' (root r) v = leaf s (root r) v := by
  have h52 := h.sound.sized.total
  have hne : ¬ (pageAddr p = 0 ∨ count = 0) := by
    rintro (e | rfl)
    · exact pageAddr_ne hp0 haddr e
    · exact hn hcount.symm
  have hlist := freedPages_run hcount haddr (show p + n < 2 ^ 64 by omega)
  have hset : ((List.range n).map fun i => p + i).toFinset = Finset.Ico p (p + n) := by
    ext q
    rw [List.mem_toFinset, List.mem_map, Finset.mem_Ico]
    constructor
    · rintro ⟨i, hi, rfl⟩
      have hi := List.mem_range.mp hi
      omega
    · rintro ⟨h₁, h₂⟩
      exact ⟨q - p, List.mem_range.mpr (by omega), by omega⟩
  obtain ⟨s', hfree, hsound, hsame, hpages, hmem⟩ := @freeLoop_exact memmap ((List.range n).map fun i => p + i) s h.sound h.placed
    fun q hq => by
      obtain ⟨i, hi, rfl⟩ := List.mem_map.mp hq
      have hi := List.mem_range.mp hi
      obtain ⟨huse, hout, -⟩ := hrun (p + i) (by omega) (by omega)
      exact ⟨by omega, by omega, huse, hout⟩
  rw [hset] at hpages
  have hview : ∀ x, IsTable s root S x → ∀ i, view s'.mem x i = view s.mem x i := fun x hx =>
    view_congr fun a ha => hmem a ((h.used x hx).2.off ha)
  obtain ⟨htables, hwalk, hleaf⟩ := h.aside hsound hsame (fun x hx hin => by
    rw [hpages] at hin
    rcases Finset.mem_union.mp hin with hin | hin
    · exact (h.used x hx).1 hin
    · obtain ⟨h₁, h₂⟩ := Finset.mem_Ico.mp hin
      exact (hrun x h₁ h₂).2.2 hx) hview
  refine ⟨s', ?_, htables, hsame, hpages, hwalk _ _, fun hv => hleaf hv.tables.2.2.2⟩
  rw [freeFrames, pmmFreePages, if_neg hne, hlist, hfree]
  rfl

end Frames

/-! ### The operations -/

section Operations

variable {R : Type} {memmap : List MemmapEntry} {root : R → Nat} {S : R → List Nat → Prop} {s : Pmm} {r : R}
  {space : AddressSpace} {virt : Nat}

variable (root S) in
/-- All translations are as they were, and every page that was free is free, but for those that hold new tables. -/
def LeftAlone (s s' : Pmm) : Prop :=
  (∀ r v, Covers S r v → leaf s' (root r) v = leaf s (root r) v) ∧ ∀ q ∈ s.freePages, q ∈ s'.freePages ∨ IsTable s' root S q

/-- There are tables and frames for the first `k` pages of the range, besides `taken` frames. -/
def Provided (s : Pmm) (n virt taken k : Nat) : Prop := (needed s n virt k).card + taken ≤ s.freePages.card

instance Provided.decidable (s : Pmm) (n virt taken k : Nat) : Decidable (Provided s n virt taken k) := inferInstanceAs (Decidable (_ ≤ _))

/-- No page that is mapped before the range runs out of tables was mapped already. -/
def NoneMapped (s : Pmm) (n virt taken pages : Nat) : Prop :=
  ∀ j < pages, Provided s n virt taken (j + 1) → leaf s n (pageAt virt j) = none

theorem Provided.mono {n taken k k' : Nat} (h : Provided s n virt taken k') (hk : k ≤ k') : Provided s n virt taken k :=
  (Nat.add_le_add_right (Finset.card_le_card (needed_mono hk)) taken).trans h

theorem SameEntry.refl (v : Nat) : SameEntry v v := ⟨rfl, rfl⟩

/-- **What a rollback has lost**: the pages before the first one that could not be mapped. -/
theorem rolledBack_iff {k taken pages : Nat} {s₁ s' : Pmm} (hcov : ∀ j < pages, Covers S r (pageAt virt j)) (hk : k < pages)
    (hprovided : ∀ j ≤ pages, Provided s (root r) virt taken j ↔ (needed s₁ (root r) virt j).card ≤ s₁.freePages.card)
    (hleaf : ∀ {r v}, Covers S r v → leaf s₁ (root r) v = leaf s (root r) v)
    (hback : RolledBack memmap root S r virt k s₁ s') :
    (∀ r v, Covers S r v → leaf s' (root r) v = leaf s (root r) v) ↔ NoneMapped s (root r) virt taken pages := by
  have hbefore : ∀ j < pages, Provided s (root r) virt taken (j + 1) → j < k := by
    intro j hj hprov
    by_contra hge
    have hshort := hback.short
    have := (hprovided (k + 1) (by omega)).mp (hprov.mono (show k + 1 ≤ j + 1 by omega))
    omega
  constructor
  · intro hsame j hj hprov
    rw [← hsame r _ (hcov j hj)]
    exact hback.gone (hcov j hj) ⟨j, hbefore j hj hprov, .refl _⟩
  · intro hnone r' v hv
    by_cases hin : r' = r ∧ AmongFirst virt k v
    · obtain ⟨rfl, j, hj, hsame⟩ := hin
      have hprov := ((hprovided k (by omega)).mpr hback.enough).mono (show j + 1 ≤ k by omega)
      rw [hback.gone hv ⟨j, hj, hsame⟩, hsame.leaf_eq, hnone j (by omega) hprov]
    · rw [hback.other hv hin, hleaf hv]

theorem needed_congr {n k : Nat} {s' : Pmm} (hcov : ∀ j < k, Covers S r (pageAt virt j))
    (h : ∀ {q}, S r q → walkTo s' n q = walkTo s n q) : needed s' n virt k = needed s n virt k := by
  refine Finset.biUnion_congr rfl fun j hj => Finset.filter_congr fun p hp => ?_
  obtain ⟨e, he, rfl⟩ := mem_tablePaths.mp hp
  rw [h ((hcov j (Finset.mem_range.mp hj)).take (by omega))]

/-- **`vmm_map_range`**. -/
theorem mapRange_cleanly (hmap : GoodMap memmap) (h : Tables memmap root S s) (hroot : space.pml4 = root r * pageSize)
    (hvirt : virt < 2 ^ 64) {phys pages flags : Nat} (hflags : flags < 2 ^ 64) (hcov : ∀ j < pages, Covers S r (pageAt virt j)) :
    (∃ b s', vmmMapRange space virt phys pages flags s = some (b, s') ∧ (b = false → LeftAlone root S s s')) ↔
      Provided s (root r) virt 0 pages ∨ NoneMapped s (root r) virt 0 pages := by
  have hstart : Adds memmap root S r (needed s (root r) virt 0) s s := .refl h
  rcases @mapRangeFrom_exact R memmap root S r space virt hmap hroot hvirt phys flags hflags s pages 0 s (by rwa [Nat.zero_add])
    hstart (fun _ _ => rfl) with
    ⟨s', hrun, hadds⟩ | ⟨k, s', hk, hrun, hback⟩
  · rw [Nat.zero_add] at hadds
    have hcard := hadds.card
    refine ⟨fun _ => .inl ?_, fun _ => ⟨true, s', hrun, fun hb => by cases hb⟩⟩
    rw [Provided]
    omega
  · rw [Nat.zero_add] at hk
    have hiff := @rolledBack_iff R memmap root S s r virt k 0 pages s s' hcov hk (fun j _ => Iff.rfl) (fun _ => rfl) hback
    have hnot : ¬ Provided s (root r) virt 0 pages := by
      intro hprov
      have hshort := hback.short
      have hk' : Provided s (root r) virt 0 (k + 1) := hprov.mono (show k + 1 ≤ pages by omega)
      rw [Provided] at hk'
      omega
    rw [or_iff_right hnot, ← hiff]
    constructor
    · rintro ⟨b, t, hrun', hclean⟩
      rw [vmmMapRange, hrun] at hrun'
      cases hrun'
      exact (hclean rfl).1
    · intro hsame
      obtain ⟨P, hadds⟩ := hback.adds
      exact ⟨false, s', hrun, fun _ => ⟨hsame, hadds.leak⟩⟩

/-- There are `n` free pages in a row. -/
def HasRun (s : Pmm) (n : Nat) : Prop := ∃ p, FreeRun s.isFree n s.totalPages p

/-- When `vmm_alloc_pages` fails cleanly: the frames cannot be had, or the range is not at 0 and can be mapped, or it cannot be
and no page that is mapped before it runs out of tables was mapped already. -/
def AllocClean (s : Pmm) (n virt count : Nat) : Prop :=
  ¬ HasRun s count ∨ Provided s n virt count count ∧ virt ≠ 0 ∨
    ¬ Provided s n virt count count ∧ NoneMapped s n virt count count

/-- **`vmm_alloc_pages`**. -/
theorem allocPages_cleanly (hmap : GoodMap memmap) (h : Tables memmap root S s) (hroot : space.pml4 = root r * pageSize)
    (hvirt : virt < 2 ^ 64) {count : UInt64} {flags : Nat} (hflags : flags < 2 ^ 64)
    (hcov : ∀ j < count.toNat, Covers S r (pageAt virt j)) :
    (∃ x s', vmmAllocPages space virt count flags s = some (x, s') ∧ (x = 0 → LeftAlone root S s s')) ↔
      AllocClean s (root r) virt count.toNat := by
  obtain ⟨phys, s₁, halloc, ⟨rfl, rfl, hnone⟩ | ⟨p, rfl, hrun, -, hs₁⟩⟩ := Pmm.pmmAllocPages_spec h.placed count
  · -- no frames
    refine ⟨fun _ => .inl fun ⟨p, hp⟩ => hnone p hp, fun _ => ⟨0, s₁, ?_, fun _ => ⟨fun _ _ _ => rfl, fun q hq => .inl hq⟩⟩⟩
    rw [vmmAllocPages, bind_run, show allocFrames count s₁ = some (0, s₁) from halloc]
    rfl
  have hhas : HasRun s count.toNat := ⟨p, hrun⟩
  obtain ⟨hp0, haddr, -, -⟩ := h.sound.allocRun hmap h.placed hrun
  obtain ⟨htables, hsame, hset, hwalk, hleaf⟩ := h.takeFrames hmap hrun hs₁
  have hfirst : ∀ q, p ≤ q → q < p + count.toNat → q ∈ s.freePages := fun q h₁ h₂ => by
    have := Pmm.Sound.run_free h.placed hrun (j := q - p) (by omega)
    rwa [show p + (q - p) = q by omega] at this
  have hsubset : Finset.Ico p (p + count.toNat) ⊆ s.freePages := fun q hq =>
    hfirst q (Finset.mem_Ico.mp hq).1 (Finset.mem_Ico.mp hq).2
  have hcard : s₁.freePages.card + count.toNat = s.freePages.card := by
    have hle := Finset.card_le_card hsubset
    have hdiff := Finset.card_sdiff_of_subset hsubset
    rw [Nat.card_Ico, Nat.add_sub_cancel_left] at hle hdiff
    rw [hset, hdiff]
    omega
  have hnotable : ∀ q, p ≤ q → q < p + count.toNat → ¬ IsTable s₁ root S q := by
    rintro q h₁ h₂ ⟨r', path, hp', hw⟩
    exact (h.used q ⟨r', path, hp', (hwalk hp').symm.trans hw⟩).1 (hfirst q h₁ h₂)
  have hpos : 0 < count.toNat := hrun.1
  have hprovided : ∀ j ≤ count.toNat, Provided s (root r) virt count.toNat j ↔
      (needed s₁ (root r) virt j).card ≤ s₁.freePages.card := by
    intro j hj
    rw [needed_congr (fun i hi => hcov i (by omega)) hwalk, Provided]
    omega
  have hbody : vmmAllocPages space virt count flags s = (vmmMapRange space virt (pageAddr p).toNat count.toNat flags s₁).bind fun q =>
      if q.1 then some (virt, q.2) else (freeFrames (pageAddr p) count q.2).map fun q => (0, q.2) := by
    rw [vmmAllocPages, bind_run, show allocFrames count s = some (pageAddr p, s₁) from halloc, Option.bind_some]
    dsimp only
    rw [if_neg (pageAddr_ne hp0 haddr), bind_run]
    congr 1
    funext q
    obtain ⟨_ | _, t⟩ := q
    · simp only [Bool.false_eq_true, if_false]
      rw [bind_run]
      cases freeFrames (pageAddr p) count t <;> rfl
    · rfl
  rw [hbody, AllocClean, or_iff_right (not_not.mpr hhas)]
  rcases @mapRangeFrom_exact R memmap root S r space virt hmap hroot hvirt (pageAddr p).toNat flags hflags s₁ count.toNat 0 s₁
    (by rwa [Nat.zero_add]) (.refl htables) (fun _ _ => rfl) with ⟨s₂, hmapped, hadds⟩ | ⟨k, s₂, hk, hmapped, hback⟩
  · rw [Nat.zero_add] at hadds
    have hprov : Provided s (root r) virt count.toNat count.toNat := by
      rw [hprovided _ (Nat.le_refl _)]
      have := hadds.card
      omega
    rw [show vmmMapRange space virt (pageAddr p).toNat count.toNat flags s₁ = some (true, s₂) from hmapped, Option.bind_some]
    simp only [if_true, hprov, not_true_eq_false, false_and, or_false, true_and]
    constructor
    · rintro ⟨x, s', he, hclean⟩ rfl
      cases he
      -- the first frame is neither free nor a table
      rcases (hclean rfl).2 p (hfirst p (Nat.le_refl p) (by omega)) with hfree | htable
      · have hfree := hadds.free hfree
        rw [hset] at hfree
        exact (Finset.mem_sdiff.mp hfree).2 (Finset.mem_Ico.mpr ⟨Nat.le_refl p, by omega⟩)
      · rcases hadds.reached p htable with htable | hfree
        · exact hnotable p (Nat.le_refl p) (by omega) htable
        · rw [hset] at hfree
          exact (Finset.mem_sdiff.mp hfree).2 (Finset.mem_Ico.mpr ⟨Nat.le_refl p, by omega⟩)
    · exact fun hne => ⟨virt, s₂, rfl, fun hzero => absurd hzero hne⟩
  · rw [Nat.zero_add] at hk
    have hnot : ¬ Provided s (root r) virt count.toNat count.toNat := by
      intro hprov
      have := (hprovided (k + 1) (by omega)).mp (hprov.mono (show k + 1 ≤ count.toNat by omega))
      have := hback.short
      omega
    have hiff := @rolledBack_iff R memmap root S s r virt k count.toNat count.toNat s₁ s₂ hcov hk hprovided hleaf hback
    obtain ⟨P, hadds⟩ := hback.adds
    have hin : p + count.toNat ≤ s₂.totalPages := by
      rw [hadds.same.totalPages, hsame.totalPages]
      exact hrun.2.1
    have hback' : ∀ q, p ≤ q → q < p + count.toNat → UsablePage memmap q ∧ s₂.Outside q ∧ ¬ IsTable s₂ root S q := by
      intro q h₁ h₂
      obtain ⟨huse, hout⟩ := h.sound.free q (hfirst q h₁ h₂)
      refine ⟨huse, hadds.same.outside.mpr (hsame.outside.mpr hout), fun htable => ?_⟩
      rcases hadds.reached q htable with htable | hin
      · exact hnotable q h₁ h₂ htable
      · rw [hset] at hin
        exact (Finset.mem_sdiff.mp hin).2 (Finset.mem_Ico.mpr ⟨h₁, h₂⟩)
    obtain ⟨s₃, hgiven, -, -, hfree, hwalk₃, hleaf₃⟩ :=
      @Tables.giveBack R memmap root S s₂ hadds.tables count.toNat p count rfl (by omega) hp0 haddr hin hback'
    rw [show vmmMapRange space virt (pageAddr p).toNat count.toNat flags s₁ = some (false, s₂) from hmapped, Option.bind_some]
    simp only [Bool.false_eq_true, if_false, hnot, false_and, false_or, not_false_eq_true, true_and]
    rw [hgiven, Option.map_some]
    rw [← hiff]
    constructor
    · rintro ⟨x, s', he, hclean⟩ r' v hv
      cases he
      rw [← hleaf₃ hv]
      exact (hclean rfl).1 r' v hv
    · intro hsame'
      refine ⟨0, s₃, rfl, fun _ => ⟨fun r' v hv => (hleaf₃ hv).trans (hsame' r' v hv), fun q hq => ?_⟩⟩
      rw [hfree]
      by_cases hin : q ∈ Finset.Ico p (p + count.toNat)
      · exact .inl (Finset.mem_union_right _ hin)
      · rcases hadds.leak q (by rw [hset]; exact Finset.mem_sdiff.mpr ⟨hq, hin⟩) with hq | ⟨r', path, hpath, hw⟩
        · exact .inl (Finset.mem_union_left _ hq)
        · exact .inr ⟨r', path, hpath, (hwalk₃ hpath).trans hw⟩

/-- `pmm_free_pages` of one page. -/
theorem pmmFreePages_one (phys : UInt64) (s : Pmm) : pmmFreePages phys 1 s = pmmFree phys s := by
  rw [pmmFreePages, pmmFree, freedPages]
  by_cases hzero : phys = 0
  · rw [if_pos (.inl hzero), if_pos hzero]
  · have hone : (1 : UInt64).toNat = 1 := rfl
    have hlt : phys.toNat / pageSize < 2 ^ 64 := Nat.lt_of_le_of_lt (Nat.div_le_self _ _) phys.toNat_lt
    rw [if_neg (by simp [hzero]), if_neg hzero, hone]
    show List.foldlM Pmm.freePage s [(phys.toNat / pageSize + 0) % 2 ^ 64] = _
    rw [Nat.add_zero, Nat.mod_eq_of_lt hlt]
    simp

/-- `vmm_alloc_page` is `vmm_alloc_pages` of one page. -/
theorem vmmAllocPage_eq (hvirt : virt < 2 ^ 64) (flags : Nat) :
    vmmAllocPage space virt flags = vmmAllocPages space virt 1 flags := by
  have hmap : ∀ phys : UInt64, vmmMapRange space virt phys.toNat (1 : UInt64).toNat flags = vmmMap space virt phys.toNat flags := by
    intro phys
    have hphys := phys.toNat_lt
    show mapRangeFrom space virt phys.toNat flags 1 0 = _
    rw [mapRangeFrom, Nat.zero_mul, Nat.add_zero, Nat.add_zero, Nat.mod_eq_of_lt hvirt, Nat.mod_eq_of_lt hphys]
    funext s
    rw [bind_run]
    cases vmmMap space virt phys.toNat flags s with
    | none => rfl
    | some q => obtain ⟨_ | _, t⟩ := q <;> rfl
  have hfree : ∀ phys : UInt64, freeFrames phys 1 = freeFrame phys := fun phys => by
    funext s
    rw [freeFrames, freeFrame, pmmFreePages_one]
  have halloc : allocFrames 1 = allocFrame := rfl
  rw [vmmAllocPage, vmmAllocPages, halloc]
  simp only [hmap, hfree]

/-! ### A new space -/

variable (s s') in
/-- The allocator is as it was. -/
structure Unchanged : Prop where
  same : Pmm.Same s s'
  free : s'.freePages = s.freePages
  used : s'.usedPages = s.usedPages

theorem unchanged_of_free (hs : s.Sound memmap) (hs' : s'.Sound memmap) (hsame : Pmm.Same s s') (hfree : s'.freePages = s.freePages) :
    Unchanged s s' := by
  refine ⟨hsame, hfree, UInt64.toNat_inj.mp ?_⟩
  have hcount : s.usedPages.toNat + s.freePages.card = s.totalPages := hs.counted
  have hcount' : s'.usedPages.toNat + s'.freePages.card = s'.totalPages := hs'.counted
  rw [hfree, hsame.totalPages] at hcount'
  omega

/-- `vmm_create_address_space` returns `NULL` exactly when fewer than two pages are free, and has then changed nothing. -/
def CreatesCleanly (kernel : AddressSpace) (s : Pmm) : Prop :=
  ∃ x s', vmmCreateAddressSpace kernel s = some (x, s') ∧ (x = none ↔ s.freePages.card < 2) ∧ (x = none → Unchanged s s')

/-- The lowest free page, if any, is not the one that lies at a null pointer. -/
def NotAtNull (s : Pmm) : Prop :=
  ∀ f ∈ s.freePages, (∀ q ∈ s.freePages, f ≤ q) → pageAddr f + s.hhdmOffset ≠ 0

/-- **`vmm_create_address_space`**. -/
theorem createsCleanly_iff (hmap : GoodMap memmap) (hs : s.Sound memmap) (hb : s.bitmap ≠ 0) (kernel : AddressSpace) :
    CreatesCleanly kernel s ↔ NotAtNull s := by
  obtain ⟨x, s₁, hr, ⟨rfl, rfl, hnone⟩ | ⟨f, rfl, hrun, hlow, hs₁⟩⟩ := Pmm.pmmAlloc_spec hb
  · -- no page
    have hempty : s₁.freePages = ∅ := Finset.eq_empty_of_forall_notMem fun p hp => hnone p ((Pmm.freeRun_one hb).mpr hp)
    refine ⟨fun _ f hf => ?_, fun _ => ⟨none, s₁, create_empty hr, by simp [hempty], fun _ => unchanged_of_free hs hs (.refl s₁) rfl⟩⟩
    rw [hempty] at hf
    exact absurd hf (Finset.notMem_empty f)
  have hf := (Pmm.freeRun_one hb).mp hrun
  have hlowest : ∀ q ∈ s.freePages, f ≤ q := fun q hq => hlow q ((Pmm.freeRun_one hb).mpr hq)
  have hnull : NotAtNull s ↔ pageAddr f + s.hhdmOffset ≠ 0 := by
    refine ⟨fun h => h f hf hlowest, fun h g hg hgl => ?_⟩
    rwa [show g = f from Nat.le_antisymm (hgl f hf) (hlowest g hg)]
  obtain ⟨hf0, haddr, -, -⟩ := hs.allocRun hmap hb hrun
  obtain ⟨hsound₁, hsame₁, hset₁⟩ := hs.allocates hb hrun
  rw [← hs₁] at hsound₁ hsame₁ hset₁
  have hset₁ : s₁.freePages = s.freePages.erase f := by
    rw [hset₁]
    ext q
    rw [Finset.mem_sdiff, Finset.mem_erase, Finset.mem_Ico]
    constructor <;> rintro ⟨h₁, h₂⟩
    · exact ⟨fun e => h₂ ⟨by omega, by omega⟩, h₁⟩
    · exact ⟨h₂, fun h => h₁ (by omega)⟩
  have hcard : s₁.freePages.card + 1 = s.freePages.card := by
    rw [hset₁, Finset.card_erase_add_one hf]
  rw [hnull]
  by_cases hzero : pageAddr f + s.hhdmOffset = 0
  · -- the page is lost
    refine iff_of_false ?_ (not_not.mpr hzero)
    rintro ⟨x, s', hrun', -, hsame⟩
    rw [create_null hr (hsame₁.hhdmOffset ▸ hzero)] at hrun'
    cases hrun'
    rw [(hsame rfl).free] at hcard
    omega
  refine iff_of_true ?_ hzero
  have hzero₁ : pageAddr f + s₁.hhdmOffset ≠ 0 := hsame₁.hhdmOffset.symm ▸ hzero
  have hb₁ : s₁.bitmap ≠ 0 := hsame₁.bitmap.symm ▸ hb
  rcases hsound₁.alloc hmap hb₁ with ⟨hr₂, hempty⟩ | ⟨n, s₂, hr₂, hn, hn0, haddr₂, -⟩
  · have hlt := ((Pmm.mem_freePages hb).mp hf).1
    have h52 := hs.sized.total
    obtain ⟨husable, hout⟩ := hs.free f hf
    obtain ⟨s₂, hback, hsound₂, hsame₂, hset₂, -⟩ := hsound₁.release hb₁ (k := 0) hf0 (by omega)
      (fun _ => ⟨husable, hsame₁.outside.mpr hout⟩) (by decide)
    rw [Nat.add_zero] at hback
    refine ⟨none, s₂, create_short hr hzero₁ hr₂ hback, ?_, fun _ => unchanged_of_free hs hsound₂ (hsame₁.trans hsame₂) ?_⟩
    · rw [hempty, Finset.card_empty] at hcard
      simp only [true_iff]
      omega
    · rw [hset₂, hsame₁.totalPages, if_pos hlt, hset₁, Finset.insert_erase hf]
  · have hpos := Finset.card_pos.mpr ⟨n, hn⟩
    refine ⟨_, _, create_done hr hzero₁ hr₂ (pageAddr_ne hn0 haddr₂), ?_, fun h => by cases h⟩
    simp only [reduceCtorEq, false_iff]
    omega

/-! ### All the operations -/

/-- The operations that map pages. -/
inductive RangeOp where
  | mapRange (phys pages flags : Nat)
  | mapContiguous (count : UInt64) (flags : Nat)
  | allocPage (flags : Nat)
  | allocPages (count : UInt64) (flags : Nat)

namespace RangeOp

/-- The number of pages of its range. -/
def pages : RangeOp → Nat
  | mapRange _ pages _ => pages
  | mapContiguous count _ => count.toNat
  | allocPage _ => 1
  | allocPages count _ => count.toNat

def flags : RangeOp → Nat
  | mapRange _ _ flags => flags
  | mapContiguous _ flags => flags
  | allocPage flags => flags
  | allocPages _ flags => flags

/-- The call, and whether it reports a failure: `false`, or `NULL`. -/
def run (space : AddressSpace) (virt : Nat) : RangeOp → VmmM Bool
  | mapRange phys pages flags => (fun mapped => !mapped) <$> vmmMapRange space virt phys pages flags
  | mapContiguous count flags => (fun addr => decide (addr = 0)) <$> vmmMapContiguous space virt count flags
  | allocPage flags => (fun addr => decide (addr = 0)) <$> vmmAllocPage space virt flags
  | allocPages count flags => (fun addr => decide (addr = 0)) <$> vmmAllocPages space virt count flags

/-- When it fails cleanly, if it fails. -/
def CleanWhen (s : Pmm) (n virt : Nat) : RangeOp → Prop
  | mapRange _ pages _ => Provided s n virt 0 pages ∨ NoneMapped s n virt 0 pages
  | mapContiguous count _ => count = 0 ∨ virt = 0 ∨ AllocClean s n virt count.toNat
  | allocPage _ => AllocClean s n virt 1
  | allocPages count _ => AllocClean s n virt count.toNat

end RangeOp

variable (root S) in
/-- The operation has an outcome; when it reports a failure, everything is as it was. -/
def FailsCleanly (space : AddressSpace) (virt : Nat) (op : RangeOp) (s : Pmm) : Prop :=
  ∃ failed s', op.run space virt s = some (failed, s') ∧ (failed = true → LeftAlone root S s s')

theorem failsCleanly_of_result {op : RangeOp} {α : Type} {call : VmmM α} {fails : α → Bool}
    (hop : op.run space virt = fails <$> call) :
    FailsCleanly root S space virt op s ↔ ∃ x s', call s = some (x, s') ∧ (fails x = true → LeftAlone root S s s') := by
  have hrun : op.run space virt s = (call s).map fun q => (fails q.1, q.2) := by
    rw [hop]
    show (call s).bind _ = _
    cases call s <;> rfl
  rw [FailsCleanly, hrun]
  constructor
  · rintro ⟨failed, s', hrun, hclean⟩
    obtain ⟨⟨x, t⟩, hcall, he⟩ := Option.map_eq_some_iff.mp hrun
    cases he
    exact ⟨x, t, hcall, hclean⟩
  · rintro ⟨x, s', hcall, hclean⟩
    exact ⟨fails x, s', by rw [hcall]; rfl, hclean⟩

/-- **One operation**. -/
theorem failsCleanly_iff (hmap : GoodMap memmap) (h : Tables memmap root S s) (hroot : space.pml4 = root r * pageSize)
    (hvirt : virt < 2 ^ 64) (op : RangeOp) (hflags : op.flags < 2 ^ 64) (hcov : ∀ j < op.pages, Covers S r (pageAt virt j)) :
    FailsCleanly root S space virt op s ↔ op.CleanWhen s (root r) virt := by
  cases op with
  | mapRange phys pages flags =>
      rw [failsCleanly_of_result rfl]
      simp only [Bool.not_eq_true']
      exact mapRange_cleanly hmap h hroot hvirt hflags hcov
  | mapContiguous count flags =>
      rw [failsCleanly_of_result rfl]
      simp only [decide_eq_true_eq, RangeOp.CleanWhen, vmmMapContiguous]
      by_cases hguard : count = 0 ∨ virt = 0
      · rw [← or_assoc]
        exact iff_of_true ⟨0, s, by rw [if_pos hguard]; rfl, fun _ => ⟨fun _ _ _ => rfl, fun _ hq => .inl hq⟩⟩ (.inl hguard)
      · rw [if_neg hguard, ← or_assoc, or_iff_right hguard]
        exact allocPages_cleanly hmap h hroot hvirt hflags hcov
  | allocPage flags =>
      rw [failsCleanly_of_result rfl, vmmAllocPage_eq hvirt]
      simp only [decide_eq_true_eq]
      exact @allocPages_cleanly R memmap root S s r space virt hmap h hroot hvirt 1 flags hflags hcov
  | allocPages count flags =>
      rw [failsCleanly_of_result rfl]
      simp only [decide_eq_true_eq]
      exact allocPages_cleanly hmap h hroot hvirt hflags hcov

/-- **Failing cleanly.**  For any tables and any number of free pages: an operation that reports a failure has left all
translations and data frames as they were exactly if it meets `CleanWhen`; and a space cannot be made exactly if there are not
two pages, with nothing changed, if the lowest free page is not at a null pointer. -/
theorem fails_cleanly_iff (hmap : GoodMap memmap) (h : Tables memmap root S s) (hroot : space.pml4 = root r * pageSize)
    (hvirt : virt < 2 ^ 64) (kernel : AddressSpace) :
    (∀ op : RangeOp, op.flags < 2 ^ 64 → (∀ j < op.pages, Covers S r (pageAt virt j)) →
      (FailsCleanly root S space virt op s ↔ op.CleanWhen s (root r) virt)) ∧
    (CreatesCleanly kernel s ↔ NotAtNull s) :=
  ⟨failsCleanly_iff hmap h hroot hvirt, createsCleanly_iff hmap h.sound h.placed kernel⟩

end Operations

/-! ### Fixed inputs -/

/-- A page in the first space, the last one of its page table, and no page left. -/
def lastPmm : Pmm := takeFrames 9 (pagePmm 0x1FF000)

theorem last_spaces : Spaces bootMap 1 ownRoots lastPmm :=
  (takeFrames_moved bootMap_good (@pagePmm_sole 0x1FF000 (by decide) (by decide +kernel)).1).spaces

theorem last_covers {v : Nat} (hv : v < 2 ^ 47) : Covers (Looked 1 ownRoots) 0x12 v :=
  covers_site (.inr ⟨.inr rfl, page_lt hv⟩)

/-- The page is mapped again, which succeeds without a new table; and no space can be made. -/
theorem fails_cleanly_last :
    FailsCleanly id (Looked 1 ownRoots) ownSpace 0x1FF000 (.mapRange 0x5000 1 vmmUserPage) lastPmm ∧
      CreatesCleanly bootSpace lastPmm := by
  have hboth := @fails_cleanly_iff Nat bootMap id (Looked 1 ownRoots) lastPmm 0x12 ownSpace 0x1FF000 bootMap_good
    last_spaces.tables (by decide) (by decide) bootSpace
  refine ⟨(hboth.1 (.mapRange 0x5000 1 vmmUserPage) (by decide) fun j hj => ?_).mpr (.inl (by decide +kernel)),
    hboth.2.mpr fun f hf => ?_⟩
  · obtain rfl : j = 0 := Nat.lt_one_iff.mp hj
    exact last_covers (by decide)
  · rw [show lastPmm.freePages = ∅ by decide +kernel] at hf
    exact absurd hf (Finset.notMem_empty f)

/-- The range goes on into the next page table, for which there is no page: the page that was mapped is so no longer. -/
theorem rollback_loses_page : Tables bootMap id (Looked 1 ownRoots) lastPmm ∧
    ¬ FailsCleanly id (Looked 1 ownRoots) ownSpace 0x1FF000 (.mapRange 0x5000 2 vmmUserPage) lastPmm := by
  refine ⟨last_spaces.tables, ?_⟩
  rintro ⟨failed, s', hrun, hclean⟩
  have hfailed : (RangeOp.run ownSpace 0x1FF000 (.mapRange 0x5000 2 vmmUserPage) lastPmm).map
      (fun q => (q.1, leaf q.2 0x12 0x1FF000)) = some (true, none) := by decide +kernel
  rw [hrun] at hfailed
  obtain ⟨rfl, hgone⟩ := Prod.mk.inj (Option.some.inj hfailed)
  have hsame : leaf s' 0x12 0x1FF000 = leaf lastPmm 0x12 0x1FF000 := (hclean rfl).1 0x12 0x1FF000 (last_covers (by decide))
  have hmapped : leaf lastPmm 0x12 0x1FF000 ≠ none := by decide +kernel
  exact hmapped (hsame.symm.trans hgone)

end Blackmount.Mem
