import Blackmount.Mem.KernelHalf
import Blackmount.Mem.UserSpaces

/-!
# Mem — the pages of processes

`map_user_page`: a page with a frame of its own, filled at `VMM_SCRATCH_VA` and then entered in the tables of a
process.

* `Spaces.scratch_addr`: the page that is entered at `VMM_SCRATCH_VA` is found there from every space.
* `Spaces.mapUserPage`: the page is mapped to a frame that was free, with the bytes asked for.
-/

namespace Blackmount.Mem
open Blackmount.Lib

/-- `VMM_USER_PAGE`. -/
def vmmUserPage : Nat := pagePresent ||| pageWrite ||| pageUser

/-- `map_user_page`; `src` are the `copy_len` bytes, none for `NULL`. -/
def mapUserPage (kernel procSpace : AddressSpace) (cr3 userVa : Nat) (src : List UInt8) : VmmM Bool := do
  let kptr ← vmmAllocPage kernel vmmScratchVa vmmKernelPage
  if kptr = 0 then return false
  else
    memcpyTo cr3 kptr src
    memcpyTo cr3 (kptr + src.length) (List.replicate (pageSize - src.length) 0)
    let phys ← vmmGetPhysical kernel vmmScratchVa
    vmmUnmap kernel vmmScratchVa
    vmmMap procSpace userVa phys vmmUserPage

/-! ### The processor's walks and copies -/

/-- The addresses of one page are translated alike. -/
theorem hwIndex_page {l v i : Nat} (hv : v % pageSize = 0) (hi : i < pageSize) : hwIndex l (v + i) = hwIndex l v := by
  have hsplit : ∀ x : Nat, x / 2 ^ (12 + 9 * l) = x / pageSize / 2 ^ (9 * l) := by
    intro x
    rw [Nat.pow_add, ← Nat.div_div_eq_div_mul]
    rfl
  have hpage : (v + i) / pageSize = v / pageSize := by
    simp only [pageSize] at hv hi ⊢
    omega
  rw [hwIndex, hwIndex, hsplit, hsplit, hpage]

theorem hwWalk_page {mem : Bytes} {l n v i : Nat} (hv : v % pageSize = 0) (hi : i < pageSize) :
    hwWalk mem l n (v + i) = (hwWalk mem l n v).map (· + i) := by
  have hmod : ∀ l, (v + i) % 2 ^ (12 + 9 * l) = v % 2 ^ (12 + 9 * l) + i := by
    intro l
    have hsize : 2 ^ (12 + 9 * l) = pageSize * 2 ^ (9 * l) := Nat.pow_add 2 12 (9 * l)
    obtain ⟨k, rfl⟩ : ∃ k, v = pageSize * k := ⟨v / pageSize, (Nat.mul_div_cancel' (Nat.dvd_of_mod_eq_zero hv)).symm⟩
    rw [hsize, Nat.mod_mul, Nat.mod_mul, Nat.mul_add_mod, Nat.mod_eq_of_lt hi, Nat.mul_mod_right,
      Nat.mul_add_div (by decide), Nat.div_eq_of_lt hi, Nat.mul_div_cancel_left _ (by decide), Nat.add_zero]
    omega
  induction l generalizing n with
  | zero =>
      rw [hwWalk, hwWalk, hwIndex_page hv hi, show (v + i) % pageSize = v % pageSize + i from hmod 0]
      split
      · rw [Option.map_some, Nat.add_assoc]
      · rfl
  | succ l ih =>
      rw [hwWalk, hwWalk, hwIndex_page hv hi, hmod]
      split
      · split
        · rw [Option.map_some, Nat.add_assoc]
        · exact ih
      · rfl

section Copies

variable {mem tables : Bytes} {cr3 va a : Nat}

/-- Bytes stored at addresses that are translated in a row. -/
theorem storeAt_row {bytes : List UInt8} (h : ∀ i < bytes.length, hwAddr tables cr3 (va + i) = some (a + i))
    (hva : va + bytes.length < 2 ^ 64) :
    storeAt tables cr3 va bytes mem = some (splice mem a bytes.length fun j => bytes.getD j 0) := by
  induction bytes generalizing va a mem with
  | nil =>
      rw [storeAt]
      congr 1
      funext x
      simp [splice]
  | cons b bytes ih =>
      rw [List.length_cons] at h hva
      have hfirst := h 0 (by omega)
      rw [Nat.add_zero, Nat.add_zero] at hfirst
      have hrest : ∀ i < bytes.length, hwAddr tables cr3 (va + 1 + i) = some (a + 1 + i) := by
        intro i hi
        have := h (i + 1) (by omega)
        rwa [show va + 1 + i = va + (i + 1) by omega, show a + 1 + i = a + (i + 1) by omega]
      rw [storeAt, hfirst, Option.bind_eq_bind, Option.bind_some, Nat.mod_eq_of_lt (by omega), ih hrest (by omega)]
      congr 1
      funext x
      simp only [splice, List.length_cons]
      by_cases hx : x = a
      · subst hx
        rw [if_neg (by omega), if_pos (by omega), Function.update_self, Nat.sub_self]
        rfl
      · by_cases hin : a + 1 ≤ x ∧ x < a + 1 + bytes.length
        · rw [if_pos hin, if_pos (by omega), show x - a = x - (a + 1) + 1 by omega]
          rfl
        · rw [if_neg hin, if_neg (by omega), Function.update_of_ne hx]

end Copies

/-- The entry of a page that has a frame is plain. -/
theorem plain_of_translate {s : Pmm} {n v : Nat} (hplain : PlainTables s.mem n v)
    (hlt : ∀ p, translate s n (v / pageSize) = some p → p < 2 ^ 40) : Plain s.mem n v := by
  intro d hd m hm
  by_cases hlast : d < 3
  · exact hplain d hlast m hm
  · obtain rfl : d = 3 := by omega
    intro hpres
    have hpres : view s.mem m (ptIndex v) % 2 = 1 := hpres
    have hm : Radix.walk child (view s.mem) n (tablePath v) = some m := (hwTable_plain s hplain (Nat.le_refl 3)).symm.trans hm
    have hleaf : translate s n (v / pageSize) = some (view s.mem m (ptIndex v) / pageSize) := by
      rw [← walkTo_page, walkTo, Radix.walk_concat, hm, Option.bind_some, child, if_pos hpres]
    have hframe := hlt _ hleaf
    refine ⟨rfl, ?_⟩
    have hlow : view s.mem m (ptIndex v) < 2 ^ 52 := by
      simp only [pageSize] at hframe
      omega
    exact hlow

theorem hwWalk_translate {s : Pmm} {n v : Nat} (hplain : PlainTables s.mem n v)
    (hlt : ∀ p, translate s n (v / pageSize) = some p → p < 2 ^ 40) :
    hwWalk s.mem 3 n v = (translate s n (v / pageSize)).map fun f => f * pageSize + v % pageSize := by
  rw [hwWalk_eq s (plain_of_translate hplain hlt), walkTo_page]

/-! ### The scratch page -/

section Pages

variable {memmap : List MemmapEntry} {kroot : Nat} {roots : Nat → Prop} {s s' : Pmm} {T : Nat → Nat → Option Nat}
  {kernel space : AddressSpace} {cr3 : Nat}

/-- **The page at `VMM_SCRATCH_VA`** is the one in the kernel's tables, whatever space is loaded. -/
theorem Spaces.scratch_addr (h : Spaces memmap kroot roots s) (hcr3 : AnyRoot kroot roots cr3) {p i : Nat}
    (hp : translate s kroot (vmmScratchVa / pageSize) = some p) (hlt : p < 2 ^ 40) (hi : i < pageSize) :
    hwAddr s.mem cr3 (vmmScratchVa + i) = some (p * pageSize + i) := by
  have hcanon : Canonical (vmmScratchVa + i) := .inr (Nat.le_trans (by decide) (Nat.le_add_right vmmScratchVa i))
  have hsame : hwWalk s.mem 3 cr3 vmmScratchVa = hwWalk s.mem 3 kroot vmmScratchVa := by
    rw [hwWalk_top, hwWalk_top, h.shared hcr3 (by decide)]
  have hwalk := hwWalk_translate (h.scratch (.inl rfl)) fun q hq => by
    rw [hp] at hq
    cases hq
    exact hlt
  have hpage : vmmScratchVa % pageSize = 0 := by decide
  rw [hwAddr, if_pos hcanon, hwWalk_page hpage hi, hsame, hwalk, hp, hpage]
  simp only [Option.map_some, Nat.add_zero]

/-- `vmm_get_physical` of the scratch page. -/
theorem scratch_physical (hroot : kernel.pml4 = kroot * pageSize) {p : Nat}
    (hp : translate s kroot (vmmScratchVa / pageSize) = some p) :
    vmmGetPhysical kernel vmmScratchVa s = some (p * pageSize, s) := by
  have h := vmmGetPhysical_page (s := s) hroot vmmScratchVa
  rwa [show pageOf vmmScratchVa = vmmScratchVa by decide, physOf, hp] at h

/-- The translations are whatever they are. -/
theorem Moved.forget (h : Moved memmap kroot roots T s s') : Moved memmap kroot roots (translate s') s s' :=
  ⟨h.spaces, h.same, h.free, h.apart, h.bytes, fun _ => rfl⟩

theorem Moved.small (h : Moved memmap kroot roots T s s') {p : Nat} (hp : Apart kroot roots s' p) : p < 2 ^ 40 :=
  Nat.lt_of_lt_of_le hp.lt h.spaces.trees.small

/-- A page that was free is no page in use. -/
theorem Apart.not_free {p : Nat} (hp : p ∈ s.freePages) : ¬ Apart kroot roots s p := fun h => h.used hp

/-- A copy to a new page at `VMM_SCRATCH_VA`. -/
theorem Moved.copyTo (h : Moved memmap kroot roots T s s') (hcr3 : AnyRoot kroot roots cr3) {p : Nat}
    (hp : p ∈ s.freePages) (hapart : Apart kroot roots s' p) (hT : T kroot (vmmScratchVa / pageSize) = some p) {o : Nat}
    (bytes : List UInt8) (hlen : o + bytes.length ≤ pageSize) :
    ∃ s'', memcpyTo cr3 (vmmScratchVa + o) bytes s' = some ((), s'') ∧ Moved memmap kroot roots T s s'' ∧
      Apart kroot roots s'' p ∧ s''.mem = splice s'.mem (p * pageSize + o) bytes.length fun j => bytes.getD j 0 := by
  have htrans := (h.trans (.inl ⟨rfl, rfl⟩)).trans hT
  have hrow : ∀ i < bytes.length, hwAddr s'.mem cr3 (vmmScratchVa + o + i) = some (p * pageSize + o + i) := by
    intro i hi
    have := h.spaces.scratch_addr hcr3 (i := o + i) htrans (h.small hapart) (by omega)
    rwa [Nat.add_assoc, Nat.add_assoc]
  have hend : vmmScratchVa + o + bytes.length < 2 ^ 64 := by
    have : vmmScratchVa + pageSize < 2 ^ 64 := by decide
    omega
  have hout : ∀ a, ¬ InPage p a →
      splice s'.mem (p * pageSize + o) bytes.length (fun j => bytes.getD j 0) a = s'.mem a := by
    intro a ha
    refine splice_out _ _ ?_
    by_contra hin
    exact ha ⟨by omega, by omega⟩
  obtain ⟨hmoved, hapart'⟩ := h.store hapart (Apart.not_free hp) hout
  exact ⟨_, by rw [memcpyTo, storeAt_row hrow hend]; rfl, hmoved, hapart', rfl⟩

/-! ### `vmm_alloc_page` and `map_user_page` -/

/-- **`vmm_alloc_page`** maps the page to a frame that was free, or has given back what it took. -/
theorem Spaces.allocPage (hmap : GoodMap memmap) (h : Spaces memmap kroot roots s) {r v : Nat} (hat : At kroot roots r v)
    (hroot : space.pml4 = r * pageSize) (flags : Nat) (hflags : flags < pageSize) :
    (∃ s', vmmAllocPage space v flags s = some (0, s') ∧ Moved memmap kroot roots (translate s) s s') ∨
      ∃ p s', vmmAllocPage space v flags s = some (v, s') ∧ p ∈ s.freePages ∧ Apart kroot roots s' p ∧
        Moved memmap kroot roots (remapped s r (v / pageSize) (some p)) s s' := by
  rcases h.alloc hmap with hnone | ⟨p, s₁, hrun, hp, haddr, hne, hmoved, hapart⟩
  · refine .inl ⟨s, ?_, .refl h⟩
    rw [vmmAllocPage, bind_run, hnone, Option.bind_some]
    rfl
  · have hphys : (pageAddr p).toNat < 2 ^ 64 := (pageAddr p).toNat_lt
    have hdone : vmmAllocPage space v flags s = (vmmMap space v (pageAddr p).toNat flags s₁).bind fun r =>
        if r.1 then some (v, r.2) else (freeFrame (pageAddr p) r.2).map fun q => (0, q.2) := by
      rw [vmmAllocPage, bind_run, hrun, Option.bind_some]
      dsimp only
      rw [if_neg hne, bind_run]
      congr 1
      funext q
      obtain ⟨_ | _, t⟩ := q
      · simp only [Bool.false_eq_true, if_false]
        rw [bind_run]
        cases freeFrame (pageAddr p) t <;> rfl
      · rfl
    have hframe : (pageAddr p).toNat / pageSize = p := by rw [haddr, Nat.mul_div_cancel _ (by decide)]
    rcases hmoved.spaces.map hmap hat hroot hphys hflags with ⟨s₂, hmap₂, hm₂⟩ | ⟨s₂, hmap₂, hm₂⟩
    · obtain ⟨s₃, hfree, hm₃⟩ := (hmoved.trans' (hm₂.congr hmoved.trans)).release h hp (hm₂.apart hapart) haddr
      refine .inl ⟨s₃, ?_, hm₃⟩
      rw [hdone, hmap₂, Option.bind_some]
      simp only [Bool.false_eq_true, if_false]
      rw [hfree]
      rfl
    · refine .inr ⟨p, s₂, ?_, hp, hm₂.apart hapart, hmoved.trans' (hm₂.congr fun {r' page'} hs => ?_)⟩
      · rw [hdone, hmap₂, Option.bind_some, if_pos rfl]
      · rw [remapped, remapped, hframe, hmoved.trans hs]

/-- The page is filled: the bytes that are given, and zeros. -/
theorem Moved.fill (h : Moved memmap kroot roots T s s') (hcr3 : AnyRoot kroot roots cr3) {p : Nat}
    (hp : p ∈ s.freePages) (hapart : Apart kroot roots s' p) (hT : T kroot (vmmScratchVa / pageSize) = some p)
    {src : List UInt8} (hlen : src.length ≤ pageSize) :
    ∃ s₁ s₂, memcpyTo cr3 vmmScratchVa src s' = some ((), s₁) ∧
      memcpyTo cr3 (vmmScratchVa + src.length) (List.replicate (pageSize - src.length) 0) s₁ = some ((), s₂) ∧
      Moved memmap kroot roots T s s₂ ∧ Apart kroot roots s₂ p ∧
      ∀ i < pageSize, s₂.mem (p * pageSize + i) = src.getD i 0 := by
  obtain ⟨s₁, hrun₁, hm₁, ha₁, hmem₁⟩ := h.copyTo hcr3 hp hapart hT (o := 0) src (by omega)
  obtain ⟨s₂, hrun₂, hm₂, ha₂, hmem₂⟩ := hm₁.copyTo hcr3 hp ha₁ hT (o := src.length)
    (List.replicate (pageSize - src.length) 0) (by rw [List.length_replicate]; omega)
  refine ⟨s₁, s₂, hrun₁, hrun₂, hm₂, ha₂, fun i hi => ?_⟩
  rw [hmem₂, List.length_replicate]
  by_cases hin : i < src.length
  · rw [splice_out _ _ (.inl (by omega)), hmem₁, Nat.add_zero, splice_in _ _ hin]
  · have hzero := splice_in s₁.mem (o := p * pageSize + src.length) (n := pageSize - src.length) (j := i - src.length)
      (fun j => (List.replicate (pageSize - src.length) (0 : UInt8)).getD j 0) (by omega)
    rw [show p * pageSize + src.length + (i - src.length) = p * pageSize + i by omega] at hzero
    rw [hzero, List.getD_eq_getElem?_getD, List.getD_eq_getElem?_getD, List.getElem?_eq_none (Nat.le_of_not_lt hin),
      List.getElem?_replicate_of_lt (by omega)]
    rfl

/-- **`map_user_page`** maps the page to a frame that was free and holds the bytes; or it fails for want of a page, and
no page of a process is mapped otherwise. -/
theorem Spaces.mapUserPage (hmap : GoodMap memmap) (h : Spaces memmap kroot roots s) (hkernel : kernel.pml4 = kroot * pageSize)
    (hcr3 : AnyRoot kroot roots cr3) {r v : Nat} (hr : roots r) (hv : v < 2 ^ 47) (hroot : space.pml4 = r * pageSize)
    {src : List UInt8} (hlen : src.length ≤ pageSize) :
    (∃ s', Mem.mapUserPage kernel space cr3 v src s = some (false, s') ∧ Moved memmap kroot roots (translate s') s s' ∧
        ∀ {r' page'}, roots r' → page' < 2 ^ 35 → translate s' r' page' = translate s r' page') ∨
      ∃ p s', Mem.mapUserPage kernel space cr3 v src s = some (true, s') ∧ Moved memmap kroot roots (translate s') s s' ∧
        p ∈ s.freePages ∧ Apart kroot roots s' p ∧ (∀ i < pageSize, s'.mem (p * pageSize + i) = src.getD i 0) ∧
        ∀ {r' page'}, roots r' → page' < 2 ^ 35 → translate s' r' page' = remapped s r (v / pageSize) (some p) r' page' := by
  have hlower : ∀ {t : Pmm} {r' page' x}, roots r' →
      remapped t kroot (vmmScratchVa / pageSize) x r' page' = translate t r' page' := by
    intro t r' page' x hr'
    refine if_neg fun e => h.kernel_ne ?_
    rw [← e.1]
    exact hr'
  rcases h.allocPage hmap (.inl ⟨rfl, rfl⟩) hkernel vmmKernelPage (by decide) with
    ⟨s₁, hrun₁, hm₁⟩ | ⟨p, s₁, hrun₁, hp, ha₁, hm₁⟩
  · refine .inl ⟨s₁, ?_, hm₁.forget, fun hr' hpage' => hm₁.trans (.inr ⟨hr', hpage'⟩)⟩
    rw [Mem.mapUserPage, bind_run, hrun₁, Option.bind_some]
    rfl
  have hhere : remapped s kroot (vmmScratchVa / pageSize) (some p) kroot (vmmScratchVa / pageSize) = some p := if_pos ⟨rfl, rfl⟩
  obtain ⟨s₂, s₃, hrun₂, hrun₃, hm₃, ha₃, hmem₃⟩ := hm₁.fill hcr3 hp ha₁ hhere hlen
  have hphys := scratch_physical hkernel ((hm₃.trans (.inl ⟨rfl, rfl⟩)).trans hhere)
  obtain ⟨s₄, hrun₄, hm₄⟩ := hm₃.spaces.unmap hmap (.inl ⟨rfl, rfl⟩) hkernel
  have hbody : Mem.mapUserPage kernel space cr3 v src s = vmmMap space v (p * pageSize) vmmUserPage s₄ := by
    rw [Mem.mapUserPage, bind_run, hrun₁, Option.bind_some]
    dsimp only
    rw [if_neg (by decide), bind_run, hrun₂, Option.bind_some, bind_run, hrun₃, Option.bind_some, bind_run, hphys,
      Option.bind_some, bind_run, hrun₄, Option.bind_some]
  have htrans₄ : ∀ {r' page'}, roots r' → page' < 2 ^ 35 → translate s₄ r' page' = translate s r' page' := by
    intro r' page' hr' hpage'
    rw [hm₄.trans (.inr ⟨hr', hpage'⟩), hlower hr', hm₃.trans (.inr ⟨hr', hpage'⟩), hlower hr']
  have hsmall : p * pageSize < 2 ^ 64 := by
    have := hm₃.small ha₃
    simp only [pageSize]
    omega
  rw [hbody]
  rcases hm₄.spaces.map hmap (.inr ⟨hr, hv⟩) hroot hsmall (show vmmUserPage < pageSize by decide) with
    ⟨s₅, hrun₅, hm₅⟩ | ⟨s₅, hrun₅, hm₅⟩
  · refine .inl ⟨s₅, hrun₅, (hm₃.trans' (hm₄.trans' hm₅)).forget, fun hr' hpage' => ?_⟩
    rw [hm₅.trans (.inr ⟨hr', hpage'⟩), htrans₄ hr' hpage']
  · refine .inr ⟨p, s₅, hrun₅, (hm₃.trans' (hm₄.trans' hm₅)).forget, hp, hm₅.apart (hm₄.apart ha₃), fun i hi => ?_,
      fun hr' hpage' => ?_⟩
    · have hin : InPage p (p * pageSize + i) := ⟨by omega, by omega⟩
      rw [hm₅.bytes (hm₄.apart ha₃) hin, hm₄.bytes ha₃ hin, hmem₃ i hi]
    · rw [hm₅.trans (.inr ⟨hr', hpage'⟩), remapped, remapped, Nat.mul_div_cancel _ (by decide), htrans₄ hr' hpage']

end Pages

end Blackmount.Mem
