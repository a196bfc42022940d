import Blackmount.Mem.EntryStack
import Blackmount.Mem.UserRoundTrip

/-!
# Mem — the stack a process starts with, as the process reads it

`write_bytes_to_user` over the tables of a process, and what is in its memory when `setup_user_stack_argv` returns.

* `Laid`: bytes that are laid in a region of pages that are mapped on demand.
* `frame_run`, `copy_run`, `writeLoop_run`, `writePieces_run`: the writes.
* `stack_decodes`: the arguments and the environment are read back from the stack pointer.
-/

namespace Blackmount.Mem
open Blackmount.Lib Blackmount.Proc

/-- The pages of a process, as `write_bytes_to_user` reaches them. -/
def userPort (kernel space : AddressSpace) (cr3 : Nat) : UserPort VmmM where
  frame va := do
    let phys ← vmmGetPhysical space va
    if phys = 0 then
      if ← mapUserPage kernel space cr3 va [] then
        let phys ← vmmGetPhysical space va
        return if phys = 0 then none else some phys
      else return none
    else return some phys
  copy phys pageOff bytes := do
    let _ ← vmmMap kernel vmmScratchVa phys vmmKernelPage
    memcpyTo cr3 (vmmScratchVa + pageOff) bytes
    vmmUnmap kernel vmmScratchVa

/-- `write_bytes_to_user`, where there is no outcome if it fails. -/
def writeSure (port : UserPort VmmM) (dst : UInt64) (src : List UInt8) : VmmM Unit := do
  if ← writeBytesToUser port dst src then return ()
  else fun _ => none

section Laying

variable {memmap : List MemmapEntry} {kroot : Nat} {roots : Nat → Prop} {r lo hi : Nat} {s s' s'' : Pmm}
  {kernel space : AddressSpace} {cr3 dst : Nat} {bytes : List UInt8}

variable (kroot roots r lo hi) in
/-- The pages of a region that are mapped have frames of their own. -/
structure Region (s : Pmm) : Prop where
  apart : ∀ {page f}, lo ≤ page → page < hi → translate s r page = some f → Apart kroot roots s f
  inj : ∀ {page page' f}, lo ≤ page → page < hi → lo ≤ page' → page' < hi → translate s r page = some f →
    translate s r page' = some f → page = page'

variable (memmap kroot roots r lo hi dst bytes) in
/-- `bytes` are in the region from `dst` on; what else is mapped of it is as it was. -/
structure Laid (s s' : Pmm) : Prop where
  spaces : Spaces memmap kroot roots s'
  region : Region kroot roots r lo hi s'
  wrote : ∀ j < bytes.length, translate s' r ((dst + j) / pageSize) ≠ none ∧ memAt s' r (dst + j) = bytes.getD j 0
  kept : ∀ va, lo ≤ va / pageSize → va / pageSize < hi → ¬ (dst ≤ va ∧ va < dst + bytes.length) →
    translate s r (va / pageSize) ≠ none → translate s' r (va / pageSize) ≠ none ∧ memAt s' r va = memAt s r va

theorem Laid.refl (h : Spaces memmap kroot roots s) (hreg : Region kroot roots r lo hi s) :
    Laid memmap kroot roots r lo hi dst [] s s :=
  ⟨h, hreg, fun _ hj => absurd hj (Nat.not_lt_zero _), fun _ _ _ _ hm => ⟨hm, rfl⟩⟩

theorem Laid.append {b₁ b₂ : List UInt8} (hin : ∀ j < b₁.length, lo ≤ (dst + j) / pageSize ∧ (dst + j) / pageSize < hi)
    (h : Laid memmap kroot roots r lo hi dst b₁ s s') (h' : Laid memmap kroot roots r lo hi (dst + b₁.length) b₂ s' s'') :
    Laid memmap kroot roots r lo hi dst (b₁ ++ b₂) s s'' := by
  refine ⟨h'.spaces, h'.region, fun j hj => ?_, fun va hlo hhi hout hm => ?_⟩
  · rw [List.length_append] at hj
    by_cases hfirst : j < b₁.length
    · obtain ⟨hm, hb⟩ := h.wrote j hfirst
      obtain ⟨hm', hb'⟩ := h'.kept (dst + j) (hin j hfirst).1 (hin j hfirst).2 (by omega) hm
      refine ⟨hm', ?_⟩
      rw [hb', hb, List.getD_eq_getElem?_getD, List.getD_eq_getElem?_getD, List.getElem?_append_left hfirst]
    · have hw := h'.wrote (j - b₁.length) (by omega)
      rw [show dst + b₁.length + (j - b₁.length) = dst + j by omega] at hw
      refine ⟨hw.1, ?_⟩
      rw [hw.2, List.getD_eq_getElem?_getD, List.getD_eq_getElem?_getD, List.getElem?_append_right (by omega)]
  · rw [List.length_append] at hout
    obtain ⟨hm', hb⟩ := h.kept va hlo hhi (by omega) hm
    obtain ⟨hm'', hb'⟩ := h'.kept va hlo hhi (by omega) hm'
    exact ⟨hm'', hb'.trans hb⟩

/-- How many pages of the region are not mapped. -/
def missing (r lo hi : Nat) (s : Pmm) : Nat := ((Finset.Ico lo hi).filter fun page => translate s r page = none).card

variable (kroot r lo hi) in
/-- There are pages enough for the region, and for the table of the window. -/
def Supplied (s : Pmm) : Prop :=
  WindowReady kroot s ∧ 7 * missing r lo hi s ≤ s.freePages.card ∨ 7 * missing r lo hi s + 3 ≤ s.freePages.card

theorem Supplied.usable (h : Supplied kroot r lo hi s) : WindowUsable kroot s := by
  rcases h with h | h
  · exact .inl h.1
  · exact .inr (by omega)

theorem Supplied.missing_le (h : Supplied kroot r lo hi s) : 7 * missing r lo hi s ≤ s.freePages.card := by
  rcases h with h | h
  · exact h.2
  · omega

theorem missing_congr (h : ∀ page, lo ≤ page → page < hi → translate s' r page = translate s r page) :
    missing r lo hi s' = missing r lo hi s := by
  refine congrArg Finset.card (Finset.filter_congr fun page hpage => ?_)
  obtain ⟨hlo, hhi⟩ := Finset.mem_Ico.mp hpage
  rw [h page hlo hhi]

theorem missing_pos {page : Nat} (hlo : lo ≤ page) (hhi : page < hi) (h : translate s r page = none) :
    0 < missing r lo hi s :=
  Finset.card_pos.mpr ⟨page, Finset.mem_filter.mpr ⟨Finset.mem_Ico.mpr ⟨hlo, hhi⟩, h⟩⟩

/-- A page of the region is mapped. -/
theorem missing_mapped {page : Nat} (hlo : lo ≤ page) (hhi : page < hi) (h : translate s r page = none)
    (hother : ∀ q, lo ≤ q → q < hi → q ≠ page → translate s' r q = translate s r q) (hhere : translate s' r page ≠ none) :
    missing r lo hi s' + 1 ≤ missing r lo hi s := by
  have hin : page ∈ (Finset.Ico lo hi).filter fun page => translate s r page = none :=
    Finset.mem_filter.mpr ⟨Finset.mem_Ico.mpr ⟨hlo, hhi⟩, h⟩
  rw [missing, missing, ← Finset.card_erase_add_one hin]
  refine Nat.add_le_add_right (Finset.card_le_card fun q hq => ?_) 1
  obtain ⟨hq, hnone⟩ := Finset.mem_filter.mp hq
  obtain ⟨hqlo, hqhi⟩ := Finset.mem_Ico.mp hq
  have hne : q ≠ page := fun e => hhere (e ▸ hnone)
  rw [Finset.mem_erase, Finset.mem_filter]
  exact ⟨hne, hq, (hother q hqlo hqhi hne).symm.trans hnone⟩

/-! ### One page -/

section Page

variable {page : Nat}

/-- Nothing was mapped or written. -/
theorem Region.still {T : Nat → Nat → Option Nat} (hreg : Region kroot roots r lo hi s) (hm : Moved memmap kroot roots T s s')
    (hsame : ∀ q, lo ≤ q → q < hi → translate s' r q = translate s r q) : Laid memmap kroot roots r lo hi dst [] s s' := by
  refine ⟨hm.spaces, ⟨fun hqlo hqhi hq => ?_, fun hqlo hqhi hqlo' hqhi' hq hq' => ?_⟩,
    fun _ hj => absurd hj (Nat.not_lt_zero _), fun va hvlo hvhi _ hmapped => ?_⟩
  · rw [hsame _ hqlo hqhi] at hq
    exact hm.apart (hreg.apart hqlo hqhi hq)
  · rw [hsame _ hqlo hqhi] at hq
    rw [hsame _ hqlo' hqhi'] at hq'
    exact hreg.inj hqlo hqhi hqlo' hqhi' hq hq'
  · obtain ⟨f, hf⟩ := Option.ne_none_iff_exists'.mp hmapped
    have hf' := (hsame _ hvlo hvhi).trans hf
    have hmod := Nat.mod_lt va (show 0 < pageSize by decide)
    refine ⟨by rw [hf']; exact Option.some_ne_none f, ?_⟩
    rw [memAt_some hf', memAt_some hf]
    exact hm.bytes (hreg.apart hvlo hvhi hf) ⟨by omega, by omega⟩

/-- A page that was not mapped is, to a frame that was free. -/
theorem Region.fresh {T : Nat → Nat → Option Nat} (hreg : Region kroot roots r lo hi s) (hm : Moved memmap kroot roots T s s')
    {p : Nat} (hp : p ∈ s.freePages) (hapart : Apart kroot roots s' p) (htr : translate s r page = none)
    (hhere : translate s' r page = some p)
    (hother : ∀ q, lo ≤ q → q < hi → q ≠ page → translate s' r q = translate s r q) :
    Laid memmap kroot roots r lo hi dst [] s s' := by
  have hfresh : ∀ {q}, lo ≤ q → q < hi → q ≠ page → translate s' r q ≠ some p := by
    intro q hqlo hqhi hne hq
    rw [hother q hqlo hqhi hne] at hq
    exact Apart.not_free hp (hreg.apart hqlo hqhi hq)
  refine ⟨hm.spaces, ⟨fun {q f} hqlo hqhi hq => ?_, fun {q q' f} hqlo hqhi hqlo' hqhi' hq hq' => ?_⟩,
    fun _ hj => absurd hj (Nat.not_lt_zero _), fun va hvlo hvhi _ hmapped => ?_⟩
  · by_cases hne : q = page
    · subst hne
      obtain rfl : p = f := Option.some.inj (hhere.symm.trans hq)
      exact hapart
    · rw [hother q hqlo hqhi hne] at hq
      exact hm.apart (hreg.apart hqlo hqhi hq)
  · by_cases hne : q = page
    · by_cases hne' : q' = page
      · rw [hne, hne']
      · subst hne
        obtain rfl : p = f := Option.some.inj (hhere.symm.trans hq)
        exact absurd hq' (hfresh hqlo' hqhi' hne')
    · by_cases hne' : q' = page
      · subst hne'
        obtain rfl : p = f := Option.some.inj (hhere.symm.trans hq')
        exact absurd hq (hfresh hqlo hqhi hne)
      · rw [hother _ hqlo hqhi hne] at hq
        rw [hother _ hqlo' hqhi' hne'] at hq'
        exact hreg.inj hqlo hqhi hqlo' hqhi' hq hq'
  · have hne : va / pageSize ≠ page := fun e => hmapped (e ▸ htr)
    obtain ⟨f, hf⟩ := Option.ne_none_iff_exists'.mp hmapped
    have hf' := (hother _ hvlo hvhi hne).trans hf
    have hmod := Nat.mod_lt va (show 0 < pageSize by decide)
    refine ⟨by rw [hf']; exact Option.some_ne_none f, ?_⟩
    rw [memAt_some hf', memAt_some hf]
    exact hm.bytes (hreg.apart hvlo hvhi hf) ⟨by omega, by omega⟩

/-- **A page of the region is provided**: it has a frame, or is mapped to a new one. -/
theorem frame_run (hmap : GoodMap memmap) (hkernel : kernel.pml4 = kroot * pageSize) (hcr3 : AnyRoot kroot roots cr3)
    (hr : roots r) (hroot : space.pml4 = r * pageSize) (htop : hi ≤ 2 ^ 35) (h : Spaces memmap kroot roots s)
    (hreg : Region kroot roots r lo hi s) (hlo : lo ≤ page) (hhi : page < hi) :
    (∃ s', (userPort kernel space cr3).frame (page * pageSize) s = some (none, s') ∧ ¬ Supplied kroot r lo hi s ∧
        Laid memmap kroot roots r lo hi dst [] s s' ∧ ∀ q, lo ≤ q → q < hi → translate s' r q = translate s r q) ∨
      ∃ f s', (userPort kernel space cr3).frame (page * pageSize) s = some (some (f * pageSize), s') ∧
        translate s' r page = some f ∧ Laid memmap kroot roots r lo hi dst [] s s' ∧
        (Supplied kroot r lo hi s → Supplied kroot r lo hi s') ∧
        ∀ q, lo ≤ q → q < hi → q ≠ page → translate s' r q = translate s r q := by
  have hphys : ∀ t, vmmGetPhysical space (page * pageSize) t = some ((translate t r page).elim 0 (· * pageSize), t) := by
    intro t
    have hpage : page * pageSize / pageSize = page := Nat.mul_div_cancel _ (by decide)
    have hrun := vmmGetPhysical_page (s := t) hroot (page * pageSize)
    rwa [pageOf, physOf, hpage] at hrun
  have hnonzero : ∀ {t f}, Apart kroot roots t f → f * pageSize ≠ 0 := fun hf => Nat.mul_ne_zero hf.ne_zero (by decide)
  simp only [userPort, bind_run, hphys, Option.bind_some]
  cases htr : translate s r page with
  | some f =>
      refine .inr ⟨f, s, ?_, htr, .refl h hreg, id, fun _ _ _ _ => rfl⟩
      rw [Option.elim_some, if_neg (hnonzero (hreg.apart hlo hhi htr))]
      rfl
  | none =>
      rw [Option.elim_none, if_pos rfl, bind_run]
      have hv : page * pageSize < 2 ^ 47 := by
        simp only [pageSize]
        omega
      have hpos := missing_pos hlo hhi htr
      rcases h.mapUserPage hmap hkernel hcr3 hr hv hroot (show ([] : List UInt8).length ≤ pageSize from Nat.zero_le _) with
        ⟨s', hrun, hm, htrans⟩ | ⟨p, s', hrun, hm, hp, hapart, -, htrans⟩
      · have hfew := (h.mapUserPage_count hmap hkernel hcr3 hr hv hroot (Nat.zero_le _) hrun).2.1 rfl
        have hsame : ∀ q, lo ≤ q → q < hi → translate s' r q = translate s r q := fun q _ hq => htrans hr (by omega)
        refine .inl ⟨s', by rw [hrun]; rfl, fun hsup => ?_, hreg.still hm hsame, hsame⟩
        have := hsup.missing_le
        omega
      · obtain ⟨hcount, -, hready⟩ := h.mapUserPage_count hmap hkernel hcr3 hr hv hroot (Nat.zero_le _) hrun
        rw [Nat.mul_div_cancel _ (show 0 < pageSize by decide)] at htrans
        have hhere : translate s' r page = some p := (htrans hr (by omega)).trans (if_pos ⟨rfl, rfl⟩)
        have hother : ∀ q, lo ≤ q → q < hi → q ≠ page → translate s' r q = translate s r q := fun q _ hq hne =>
          (htrans hr (by omega)).trans (if_neg fun e => hne e.2)
        refine .inr ⟨p, s', ?_, hhere, hreg.fresh hm hp hapart htr hhere hother, fun hsup => ?_, hother⟩
        · rw [hrun, Option.bind_some]
          simp only [if_true, bind_run, hphys, Option.bind_some, hhere, Option.elim_some, if_neg (hnonzero hapart)]
          rfl
        · have hless := missing_mapped hlo hhi htr hother (by rw [hhere]; exact Option.some_ne_none p)
          have := hsup.missing_le
          exact .inl ⟨hready rfl, by omega⟩

/-- **Bytes are copied to a page of the region**, or the copy faults for want of a table of the window. -/
theorem copy_run (hmap : GoodMap memmap) (hkernel : kernel.pml4 = kroot * pageSize) (hcr3 : AnyRoot kroot roots cr3)
    (hr : roots r) (htop : hi ≤ 2 ^ 35) (h : Spaces memmap kroot roots s) (hreg : Region kroot roots r lo hi s) (hlo : lo ≤ page)
    (hhi : page < hi) {f o : Nat} (hf : translate s r page = some f) (hne : bytes ≠ []) (hlen : o + bytes.length ≤ pageSize) :
    ((userPort kernel space cr3).copy (f * pageSize) o bytes s = none ∧ ¬ Supplied kroot r lo hi s) ∨
      ∃ s', (userPort kernel space cr3).copy (f * pageSize) o bytes s = some ((), s') ∧
        Laid memmap kroot roots r lo hi (page * pageSize + o) bytes s s' ∧
        (Supplied kroot r lo hi s → Supplied kroot r lo hi s') ∧
        ∀ q, lo ≤ q → q < hi → translate s' r q = translate s r q := by
  have hapart := hreg.apart hlo hhi hf
  have hpos : 0 < bytes.length := List.length_pos_iff.mpr hne
  have hpage : ∀ {j}, j < bytes.length → (page * pageSize + o + j) / pageSize = page := by
    intro j hj
    simp only [pageSize] at *
    omega
  have hoff : (page * pageSize + o) % pageSize = o := by
    simp only [pageSize] at *
    omega
  simp only [userPort]
  rcases h.window_map hmap hkernel hapart with ⟨s', hrun, hnot, hm⟩ | ⟨s', hrun, -⟩
  · refine .inl ⟨?_, fun hsup => hnot hsup.usable⟩
    have hnone : translate s' kroot scratchPage = none := by
      rw [scratchPage, hm.trans (.inl ⟨rfl, rfl⟩)]
      by_contra hsome
      exact hnot (.inl (windowReady_of_translate hsome))
    obtain ⟨b, bs, rfl⟩ := List.exists_cons_of_ne_nil hne
    rw [bind_run, hrun, Option.bind_some, bind_run, hm.spaces.window_fault hcr3 hnone (by omega)]
    rfl
  · obtain ⟨s₁, s₂, hcopy, hunmap, hw, hready, hcount⟩ := h.window_write hmap hkernel hcr3 hapart hlen hrun
    have hsame : ∀ q, lo ≤ q → q < hi → translate s₂ r q = translate s r q := fun q _ hq =>
      hw.kept_page h.kernel_ne hr (by omega)
    have hbyte : ∀ {va g}, lo ≤ va / pageSize → va / pageSize < hi → translate s r (va / pageSize) = some g →
        memAt s₂ r va = overlaid r (page * pageSize + o) bytes (memAt s) r va := by
      intro va g hvlo hvhi hg
      have hva : va < 2 ^ 47 := by
        simp only [pageSize] at hvhi
        omega
      have hstart := hpage hpos
      rw [Nat.add_zero] at hstart
      refine hw.byte h.kernel_ne hoff (by rw [hstart, hf]) hlen hr hva hg (hreg.apart hvlo hvhi hg) fun _ hsame => ⟨rfl, ?_⟩
      rw [hstart]
      exact hreg.inj hvlo hvhi hlo hhi (hsame ▸ hg) hf
    refine .inr ⟨s₂, ?_, ⟨hw.spaces, ⟨fun hqlo hqhi hq => ?_, fun hqlo hqhi hqlo' hqhi' hq hq' => ?_⟩, fun j hj => ?_,
      fun va hvlo hvhi hout hmapped => ?_⟩, fun hsup => ?_, hsame⟩
    · rw [bind_run, hrun, Option.bind_some, bind_run, hcopy, Option.bind_some, hunmap]
    · rw [hsame _ hqlo hqhi] at hq
      exact hw.apart (hreg.apart hqlo hqhi hq)
    · rw [hsame _ hqlo hqhi] at hq
      rw [hsame _ hqlo' hqhi'] at hq'
      exact hreg.inj hqlo hqhi hqlo' hqhi' hq hq'
    · have hhere := hpage hj
      refine ⟨by rw [hhere, hsame page hlo hhi, hf]; exact Option.some_ne_none f, ?_⟩
      rw [hbyte (by rw [hhere]; exact hlo) (by rw [hhere]; exact hhi) (by rw [hhere]; exact hf), overlaid_in _ hj]
    · obtain ⟨g, hg⟩ := Option.ne_none_iff_exists'.mp hmapped
      refine ⟨by rw [hsame _ hvlo hvhi]; exact hmapped, ?_⟩
      rw [hbyte hvlo hvhi hg, overlaid_out _ fun e => hout e.2]
    · have hmiss := missing_congr hsame
      refine .inl ⟨hready, ?_⟩
      rw [hmiss]
      have hphys : f * pageSize < 2 ^ 64 := by
        have := Nat.lt_of_lt_of_le hapart.lt h.trees.small
        simp only [pageSize]
        omega
      rcases hsup with ⟨hwas, hmany⟩ | hmany
      · have := (h.scratch_maps hkernel hwas hphys (by decide) hrun).2
        omega
      · have := (h.map_count hmap (.inl ⟨rfl, rfl⟩) hkernel hphys (show vmmKernelPage < pageSize by decide) hrun).1
        omega

end Page

/-! ### The writes -/

section Writes

variable {src : List UInt8}

/-- **`write_bytes_to_user`** lays its bytes in the region, or fails for want of pages. -/
theorem writeLoop_run (hmap : GoodMap memmap) (hkernel : kernel.pml4 = kroot * pageSize) (hcr3 : AnyRoot kroot roots cr3)
    (hr : roots r) (hroot : space.pml4 = r * pageSize) (htop : hi ≤ 2 ^ 35) : ∀ (fuel dst : Nat) (src : List UInt8) (s : Pmm),
    src.length ≤ fuel → lo * pageSize ≤ dst → dst + src.length ≤ hi * pageSize → Spaces memmap kroot roots s →
    Region kroot roots r lo hi s →
    ((∀ s', writeLoop (userPort kernel space cr3) fuel dst src s ≠ some (true, s')) ∧ ¬ Supplied kroot r lo hi s) ∨
      ∃ s', writeLoop (userPort kernel space cr3) fuel dst src s = some (true, s') ∧
        Laid memmap kroot roots r lo hi dst src s s' ∧ (Supplied kroot r lo hi s → Supplied kroot r lo hi s') := by
  intro fuel
  induction fuel with
  | zero =>
      intro dst src s hlen _ _ h hreg
      obtain rfl : src = [] := List.length_eq_zero_iff.mp (by omega)
      exact .inr ⟨s, rfl, .refl h hreg, id⟩
  | succ fuel ih =>
      intro dst src s hlen hdst hend h hreg
      rw [writeLoop]
      by_cases hnil : src = []
      · subst hnil
        rw [if_pos rfl]
        exact .inr ⟨s, rfl, .refl h hreg, id⟩
      have hpos : 0 < src.length := List.length_pos_iff.mpr hnil
      have hoff : dst % pageSize < pageSize := Nat.mod_lt _ (by decide)
      have hsplit : dst / pageSize * pageSize + dst % pageSize = dst := Nat.div_add_mod' dst pageSize
      have hbig : hi * pageSize ≤ 2 ^ 47 := by
        simp only [pageSize]
        omega
      rw [if_neg hnil, show dst - dst % pageSize = dst / pageSize * pageSize by omega]
      generalize hc : min (pageSize - dst % pageSize) src.length = chunk
      have htake : (src.take chunk).length = chunk := by
        rw [List.length_take]
        omega
      have hin : ∀ j < chunk, lo ≤ (dst + j) / pageSize ∧ (dst + j) / pageSize < hi := by
        intro j hj
        simp only [pageSize] at *
        omega
      obtain ⟨hlo, hhi⟩ := hin 0 (by omega)
      rw [Nat.add_zero] at hlo hhi
      rw [bind_run]
      rcases @frame_run memmap kroot roots r lo hi s kernel space cr3 dst _ hmap hkernel hcr3 hr hroot htop h hreg hlo hhi with
        ⟨s₁, hrun, hnot, -⟩ | ⟨f, s₁, hrun, hf, hlaid, hsup, -⟩
      · refine .inl ⟨fun s' he => ?_, hnot⟩
        rw [hrun] at he
        cases he
      rw [hrun, Option.bind_some]
      simp only
      rw [bind_run]
      rcases copy_run hmap hkernel hcr3 hr htop hlaid.spaces hlaid.region hlo hhi hf
        (show src.take chunk ≠ [] from fun e => by rw [e, List.length_nil] at htake; omega)
        (show dst % pageSize + (src.take chunk).length ≤ pageSize by omega) with ⟨hcopy, hnot⟩ |
          ⟨s₂, hcopy, hlaid₂, hsup₂, -⟩
      · refine .inl ⟨fun s' he => ?_, fun h => hnot (hsup h)⟩
        rw [hcopy] at he
        cases he
      rw [hcopy, Option.bind_some]
      rw [hsplit] at hlaid₂
      have hfirst : Laid memmap kroot roots r lo hi dst (src.take chunk) s s₂ :=
        Laid.append (fun _ hj => absurd hj (Nat.not_lt_zero _)) hlaid hlaid₂
      simp only
      rw [Nat.mod_eq_of_lt (show dst + chunk < 2 ^ 64 by omega)]
      rcases ih (dst + chunk) (src.drop chunk) s₂ (by rw [List.length_drop]; omega) (by omega)
        (by rw [List.length_drop]; omega) hlaid₂.spaces hlaid₂.region with ⟨hne, hnot⟩ | ⟨s₃, hrest, hlaid₃, hsup₃⟩
      · exact .inl ⟨hne, fun h => hnot (hsup₂ (hsup h))⟩
      · refine .inr ⟨s₃, hrest, ?_, fun h => hsup₃ (hsup₂ (hsup h))⟩
        rw [← List.take_append_drop chunk src]
        refine Laid.append (fun j hj => hin j (by omega)) hfirst ?_
        rw [htake]
        exact hlaid₃

/-- Each piece is below the one before, the first one below `top`, and all are above `bottom`. -/
def Below (bottom : Nat) : Nat → List Piece → Prop
  | _, [] => True
  | top, p :: ps => bottom ≤ p.1.toNat ∧ p.1.toNat + p.2.length ≤ top ∧ Below bottom p.1.toNat ps

instance Below.decidable (bottom : Nat) : ∀ (top : Nat) (ps : List Piece), Decidable (Below bottom top ps)
  | _, [] => .isTrue trivial
  | _, p :: ps => @instDecidableAnd _ _ _ (@instDecidableAnd _ _ _ (Below.decidable bottom p.1.toNat ps))

theorem Below.mono {bottom top top' : Nat} (h : top ≤ top') : ∀ {ps : List Piece}, Below bottom top ps → Below bottom top' ps
  | [], _ => trivial
  | _ :: _, ⟨hlow, hhigh, hrest⟩ => ⟨hlow, hhigh.trans h, hrest⟩

/-- Pieces that are below those of a list are below it. -/
theorem Below.append {bottom mid : Nat} {qs : List Piece} (hq : Below bottom mid qs) :
    ∀ {ps : List Piece} {top : Nat}, Below bottom top ps → mid ≤ top → (∀ p ∈ ps, mid ≤ p.1.toNat) → Below bottom top (ps ++ qs)
  | [], _, _, hmid, _ => hq.mono hmid
  | p :: _, _, ⟨hlow, hhigh, hrest⟩, _, hall =>
      ⟨hlow, hhigh, hq.append hrest (hall p List.mem_cons_self) fun q hq => hall q (List.mem_cons_of_mem p hq)⟩

theorem Below.lower {bottom bottom' : Nat} (h : bottom' ≤ bottom) : ∀ {ps : List Piece} {top : Nat}, Below bottom top ps →
    Below bottom' top ps
  | [], _, _ => trivial
  | _ :: _, _, ⟨hlow, hhigh, hrest⟩ => ⟨h.trans hlow, hhigh, hrest.lower h⟩

theorem Below.le_top {bottom : Nat} : ∀ {ps : List Piece} {top : Nat}, Below bottom top ps → ∀ p ∈ ps,
    bottom ≤ p.1.toNat ∧ p.1.toNat + p.2.length ≤ top
  | q :: _, top, ⟨hlow, hhigh, hrest⟩, p, hp => by
      rcases List.mem_cons.mp hp with rfl | hp
      · exact ⟨hlow, hhigh⟩
      · obtain ⟨h₁, h₂⟩ := hrest.le_top p hp
        exact ⟨h₁, by omega⟩

theorem Below.descending {bottom : Nat} : ∀ {ps : List Piece} {top : Nat}, Below bottom top ps →
    ps.Pairwise fun p q => q.1.toNat + q.2.length ≤ p.1.toNat
  | [], _, _ => .nil
  | _ :: _, _, ⟨_, _, hrest⟩ => .cons (fun q hq => (hrest.le_top q hq).2) hrest.descending

variable (memmap kroot roots r lo hi) in
/-- The pieces are in the region; what is mapped above them is as it was. -/
structure PiecesLaid (top : Nat) (ps : List Piece) (s s' : Pmm) : Prop where
  spaces : Spaces memmap kroot roots s'
  region : Region kroot roots r lo hi s'
  wrote : ∀ p ∈ ps, ∀ j < p.2.length, memAt s' r (p.1.toNat + j) = p.2.getD j 0
  kept : ∀ va, top ≤ va → va / pageSize < hi → translate s r (va / pageSize) ≠ none →
    translate s' r (va / pageSize) ≠ none ∧ memAt s' r va = memAt s r va

theorem writePieces_cons {write : UInt64 → List UInt8 → VmmM Unit} {p : Piece} {ps : List Piece} :
    writePieces write (p :: ps) s = (write p.1 p.2 s).bind fun q => writePieces write ps q.2 := rfl

theorem writeSure_run {port : UserPort VmmM} {at' : UInt64} :
    writeSure port at' src s = (writeBytesToUser port at' src s).bind fun q => if q.1 then some ((), q.2) else none := by
  rw [writeSure, bind_run]
  congr 1
  funext q
  obtain ⟨_ | _, t⟩ := q <;> rfl

/-- **The pieces are laid**, or one of them fails for want of pages. -/
theorem writePieces_run (hmap : GoodMap memmap) (hkernel : kernel.pml4 = kroot * pageSize) (hcr3 : AnyRoot kroot roots cr3)
    (hr : roots r) (hroot : space.pml4 = r * pageSize) (htop : hi ≤ 2 ^ 35) : ∀ (ps : List Piece) (top : Nat) (s : Pmm),
    Below (lo * pageSize) top ps → lo * pageSize ≤ top → top ≤ hi * pageSize → Spaces memmap kroot roots s →
    Region kroot roots r lo hi s →
    (writePieces (writeSure (userPort kernel space cr3)) ps s = none ∧ ¬ Supplied kroot r lo hi s) ∨
      ∃ s', writePieces (writeSure (userPort kernel space cr3)) ps s = some ((), s') ∧
        PiecesLaid memmap kroot roots r lo hi top ps s s' ∧ (Supplied kroot r lo hi s → Supplied kroot r lo hi s') := by
  intro ps
  induction ps with
  | nil =>
      intro top s _ _ _ h hreg
      exact .inr ⟨s, rfl, ⟨h, hreg, fun p hp => absurd hp List.not_mem_nil, fun _ _ _ hm => ⟨hm, rfl⟩⟩, id⟩
  | cons p ps ih =>
      intro top s hbelow hle hhi h hreg
      obtain ⟨hlow, hhigh, hrest⟩ := hbelow
      rw [writePieces_cons, writeSure_run, writeBytesToUser]
      rcases writeLoop_run hmap hkernel hcr3 hr hroot htop p.2.length p.1.toNat p.2 s (Nat.le_refl _) hlow (by omega) h hreg with
        ⟨hne, hnot⟩ | ⟨s₁, hfirst, hlaid, hsup⟩
      · refine .inl ⟨?_, hnot⟩
        cases hw : writeLoop (userPort kernel space cr3) p.2.length p.1.toNat p.2 s with
        | none => rfl
        | some q =>
            obtain ⟨_ | _, t⟩ := q
            · rfl
            · exact absurd hw (hne t)
      · rw [hfirst, Option.bind_some]
        simp only [if_true, Option.bind_some]
        rcases ih p.1.toNat s₁ hrest hlow (by omega) hlaid.spaces hlaid.region with ⟨hnone, hnot⟩ | ⟨s₂, hsecond, hlaid₂, hsup₂⟩
        · exact .inl ⟨hnone, fun h => hnot (hsup h)⟩
        · refine .inr ⟨s₂, hsecond, ⟨hlaid₂.spaces, hlaid₂.region, fun q hq j hj => ?_, fun va hva hvhi hm => ?_⟩,
            fun h => hsup₂ (hsup h)⟩
          · rcases List.mem_cons.mp hq with rfl | hq
            · obtain ⟨hm, hb⟩ := hlaid.wrote j hj
              have hvhi : (q.1.toNat + j) / pageSize < hi := by
                simp only [pageSize] at *
                omega
              rw [(hlaid₂.kept _ (Nat.le_add_right _ j) hvhi hm).2, hb]
            · exact hlaid₂.wrote q hq j hj
          · have hvlo : lo ≤ va / pageSize := by
              simp only [pageSize] at *
              omega
            obtain ⟨hm', hb⟩ := hlaid.kept va hvlo hvhi (by omega) hm
            obtain ⟨hm'', hb'⟩ := hlaid₂.kept va (by omega) hvhi hm'
            exact ⟨hm'', hb'.trans hb⟩

/-- Where every write succeeds, it does not matter that nobody asks. -/
theorem writePieces_any {port : UserPort VmmM} : ∀ (ps : List Piece) (s : Pmm), writePieces (writeSure port) ps s = some ((), s') →
    writePieces (writeAny port) ps s = some ((), s') := by
  intro ps
  induction ps with
  | nil => exact fun _ h => h
  | cons p ps ih =>
      intro s h
      rw [writePieces_cons, writeSure_run] at h
      obtain ⟨⟨⟨⟩, s₁⟩, hfirst, hrest⟩ := Option.bind_eq_some_iff.mp h
      obtain ⟨⟨b, t⟩, hw, hb⟩ := Option.bind_eq_some_iff.mp hfirst
      cases b with
      | false => cases hb
      | true =>
          cases hb
          rw [writePieces_cons, writeAny, bind_run, hw]
          exact ih _ hrest

end Writes

end Laying

/-! ### Reading the stack -/

/-- The `n` bytes from `va` on. -/
def bytesAt (mem : Bytes) (va n : Nat) : List UInt8 := (List.range n).map fun j => mem (va + j)

/-- The `n` words from `va` on. -/
def wordsAt (mem : Bytes) (va n : Nat) : List Nat := (List.range n).map fun i => rd64 mem (va + 8 * i)

theorem bytesAt_eq {mem : Bytes} {va : Nat} {bs : List UInt8} (h : ∀ j < bs.length, mem (va + j) = bs.getD j 0) :
    bytesAt mem va bs.length = bs := by
  refine List.ext_getElem (by simp [bytesAt]) fun j hj hj' => ?_
  simp only [bytesAt, List.getElem_map, List.getElem_range]
  rw [h j hj', List.getD_eq_getElem?_getD, List.getElem?_eq_getElem hj', Option.getD_some]

/-- The bytes of a word in memory. -/
theorem wr64_byte (b : Bytes) (v : Nat) {j : Nat} (hj : j < 8) : wr64 b 0 v j = byteOf (v / 256 ^ j) := by
  have hcases : j = 0 ∨ j = 1 ∨ j = 2 ∨ j = 3 ∨ j = 4 ∨ j = 5 ∨ j = 6 ∨ j = 7 := by omega
  rcases hcases with rfl | rfl | rfl | rfl | rfl | rfl | rfl | rfl <;>
    simp [wr64, wr32, wr16, wr8, Nat.div_div_eq_div_mul]

/-- A word is read back from its bytes. -/
theorem rd64_le64 {mem : Bytes} {a : Nat} {v : UInt64} (h : ∀ j < 8, mem (a + j) = (le64 v).getD j 0) :
    rd64 mem a = v.toNat := by
  have hsame : rd64 mem a = rd64 (wr64 (fun _ => 0) 0 v.toNat) 0 := rd64_moved fun j hj => by
    rw [Nat.zero_add, wr64_byte _ _ hj, h j hj, le64, List.getD_eq_getElem?_getD, List.getElem?_map, List.getElem?_range hj]
    rfl
  rw [hsame, rd64_wr64, Nat.mod_eq_of_lt v.toNat_lt]

/-- A NUL-terminated copy of a string. -/
def StringAt (mem : Bytes) (va : Nat) (str : CString) : Prop := bytesAt mem va str.stored.length = str.stored

/-- A piece of memory: its address and its length. -/
abbrev Span := Nat × Nat

/-- The spans of strings. -/
def stringSpans (ptrs : List Nat) (strs : List CString) : List Span :=
  List.zipWith (fun p str => (p, str.stored.length)) ptrs strs

/-- **What a program reads from its stack pointer on**: the number of arguments, the arguments, a null pointer, the
environment, a null pointer, and the auxiliary vector; none of it overlaps. -/
def Decodes (mem : Bytes) (sp : Nat) (args env : List CString) : Prop :=
  ∃ (argPtrs envPtrs : List Nat) (rand : Nat),
    wordsAt mem sp (args.length + env.length + 9) =
      args.length :: argPtrs ++ 0 :: envPtrs ++ 0 :: [6, 0x1000, 25, rand, 0, 0] ∧
    List.Forall₂ (StringAt mem) argPtrs args ∧ List.Forall₂ (StringAt mem) envPtrs env ∧
    (∀ p ∈ argPtrs ++ envPtrs, p ≠ 0) ∧ bytesAt mem rand 16 = randBytes ∧
    ((sp, 8 * (args.length + env.length + 9)) :: (stringSpans argPtrs args ++ stringSpans envPtrs env ++ [(rand, 16)])).Pairwise
      fun a b => a.1 + a.2 ≤ b.1

variable {strs : Nat → CString}

section Decoding

variable {mem : Bytes}

/-- The pieces are in memory. -/
def Holds (mem : Bytes) (ps : List Piece) : Prop := ∀ p ∈ ps, ∀ j < p.2.length, mem (p.1.toNat + j) = p.2.getD j 0

theorem Holds.of_append {ps qs : List Piece} (h : Holds mem (ps ++ qs)) : Holds mem ps ∧ Holds mem qs :=
  ⟨fun p hp => h p (List.mem_append_left qs hp), fun p hp => h p (List.mem_append_right ps hp)⟩

/-- Words are read in the other order. -/
theorem Holds.words : ∀ {vs : List UInt64} {sp : UInt64}, Holds mem (wordPieces vs sp) → 8 * vs.length ≤ sp.toNat →
    (wordsEnd vs sp).toNat = sp.toNat - 8 * vs.length ∧
      wordsAt mem (wordsEnd vs sp).toNat vs.length = vs.reverse.map UInt64.toNat := by
  intro vs
  induction vs with
  | nil => exact fun _ _ => ⟨rfl, rfl⟩
  | cons v vs ih =>
      intro sp h hfit
      rw [List.length_cons] at hfit
      have hsub : (sp - 8).toNat = sp.toNat - 8 := UInt64.toNat_sub_of_le _ _ (UInt64.le_iff_toNat_le.mpr (by
        have : (8 : UInt64).toNat = 8 := rfl
        omega))
      obtain ⟨hend, hwords⟩ := @ih (sp - 8) (fun p hp => h p (List.mem_cons_of_mem _ hp)) (by omega)
      have hfirst : rd64 mem (sp - 8).toNat = v.toNat := rd64_le64 fun j hj => h _ List.mem_cons_self j hj
      refine ⟨?_, ?_⟩
      · rw [wordsEnd, hend, List.length_cons]
        omega
      · rw [wordsEnd, List.length_cons, wordsAt, List.range_succ, List.map_append, List.reverse_cons, List.map_append]
        rw [wordsAt] at hwords
        rw [hwords, hend, hsub]
        have hplace : sp.toNat - 8 - 8 * vs.length + 8 * vs.length = sp.toNat - 8 := by omega
        simp only [List.map_cons, List.map_nil, hplace]
        rw [← hsub, hfirst]

theorem stringPtrs_append : ∀ {n : Nat} {sp : UInt64} {ptrs : List UInt64},
    stringPtrs strs n sp ptrs = stringPtrs strs n sp [] ++ ptrs := by
  intro n
  induction n with
  | zero => exact fun {_ _} => rfl
  | succ n ih =>
      intro sp ptrs
      rw [stringPtrs, stringPtrs, ih, @ih _ [_], List.append_assoc]
      rfl

theorem mem_stringPtrs {ptr : UInt64} : ∀ {n : Nat} {sp : UInt64}, ptr ∈ stringPtrs strs n sp [] →
    ∃ q ∈ stringPieces strs n sp, q.1 = ptr := by
  intro n
  induction n with
  | zero => exact fun {_} h => absurd h List.not_mem_nil
  | succ n ih =>
      intro sp h
      rw [stringPtrs, stringPtrs_append] at h
      rcases List.mem_append.mp h with h | h
      · obtain ⟨q, hq, he⟩ := ih h
        exact ⟨q, List.mem_cons_of_mem _ hq, he⟩
      · exact ⟨_, List.mem_cons_self, (List.mem_singleton.mp h).symm⟩

/-- The strings with their addresses, in their order. -/
theorem stringPieces_reverse : ∀ {n : Nat} {sp : UInt64},
    (stringPieces strs n sp).reverse =
      List.zipWith (fun p str => (p, str.stored)) (stringPtrs strs n sp []) ((List.range n).map strs) := by
  intro n
  induction n with
  | zero => exact fun {_} => rfl
  | succ n ih =>
      intro sp
      have hlen : (stringPtrs strs n (sp - (strs n).size) []).length = ((List.range n).map strs).length := by
        rw [stringPtrs_length, List.length_map, List.length_range]
        rfl
      rw [stringPieces, List.reverse_cons, ih, stringPtrs, @stringPtrs_append strs n _ [_], List.range_succ, List.map_append,
        List.zipWith_append hlen]
      rfl

theorem forall₂_strings {ps : List UInt64} : ∀ {strs : List CString}, ps.length = strs.length →
    Holds mem (List.zipWith (fun p str => (p, str.stored)) ps strs) →
    List.Forall₂ (StringAt mem) (ps.map UInt64.toNat) strs := by
  induction ps with
  | nil =>
      intro strs hlen _
      obtain rfl : strs = [] := List.length_eq_zero_iff.mp hlen.symm
      exact .nil
  | cons p ps ih =>
      intro strs hlen h
      obtain ⟨str, strs, rfl⟩ := List.exists_cons_of_length_pos (show 0 < strs.length by rw [← hlen]; exact Nat.succ_pos _)
      refine .cons (bytesAt_eq fun j hj => h _ List.mem_cons_self j hj) (ih (Nat.succ.inj hlen) fun q hq =>
        h q (List.mem_cons_of_mem _ hq))

/-- The strings that were laid, as they are read. -/
theorem Holds.strings {n : Nat} {sp : UInt64} (h : Holds mem (stringPieces strs n sp)) :
    List.Forall₂ (StringAt mem) ((stringPtrs strs n sp []).map UInt64.toNat) ((List.range n).map strs) := by
  refine forall₂_strings (by rw [stringPtrs_length, List.length_map, List.length_range]; rfl) fun p hp => h p ?_
  rw [← stringPieces_reverse] at hp
  exact List.mem_reverse.mp hp

theorem stringSpans_eq {n : Nat} {sp : UInt64} :
    stringSpans ((stringPtrs strs n sp []).map UInt64.toNat) ((List.range n).map strs) =
      (stringPieces strs n sp).reverse.map fun p => (p.1.toNat, p.2.length) := by
  rw [stringPieces_reverse, stringSpans, List.zipWith_map_left, List.map_zipWith]

end Decoding

/-! ### The stack of a program -/

theorem noName_fits : ([] : List UInt8).length + 1 < 2 ^ 64 := by decide

/-- The arrays of the caller, as `int` and `const char **`. -/
def countOf (strs : List CString) : Int32 := Int32.ofNat strs.length

def arrayOf (strs : List CString) (i : Nat) : CString := strs.getD i ⟨[], noName_fits⟩

/-- The bytes of the strings with their NULs. -/
def stringBytes (strs : List CString) : Nat := (strs.map fun str => str.bytes.length + 1).sum

/-- What the strings and the vectors need. -/
def stackBytes (args env : List CString) : Nat :=
  (32 + stringBytes env + stringBytes args + 15) / 16 * 16 + 8 * (args.length + env.length + 9)

theorem range_arrayOf (strs : List CString) : (List.range strs.length).map (arrayOf strs) = strs := by
  refine List.ext_getElem (by simp) fun j hj hj' => ?_
  rw [List.getElem_map, List.getElem_range, arrayOf, List.getD_eq_getElem?_getD, List.getElem?_eq_getElem hj', Option.getD_some]

theorem stringsSize_arrayOf (strs : List CString) : Setup.stringsSize (arrayOf strs) strs.length = stringBytes strs := by
  rw [stringBytes, ← congrArg (List.map fun str : CString => str.bytes.length + 1) (range_arrayOf strs), List.map_map]
  rfl

section Program

variable {args env : List CString} {slot : Slot}

theorem countOf_toNat {strs : List CString} (h : strs.length < 2 ^ 31) : (countOf strs).toNatClampNeg = strs.length :=
  Int32.toNatClampNeg_ofNat_of_lt h

theorem countOf_word {strs : List CString} (h : strs.length < 2 ^ 31) : (countOf strs).toInt64.toUInt64.toNat = strs.length := by
  have hint : (countOf strs).toInt = strs.length := Int32.toInt_ofNat_of_lt h
  have hpos : (0 : Int64) ≤ (countOf strs).toInt64 := by
    rw [Int64.le_iff_toInt_le, Int32.toInt_toInt64, hint]
    exact Int.natCast_nonneg _
  rw [Int64.toNat_toUInt64_of_le hpos, Int32.toNatClampNeg_toInt64, countOf_toNat h]

/-- The frame that `setup_user_stack_argv` lays. -/
abbrev programFrame (slot : Slot) (args env : List CString) : Frame :=
  argvFrame (stackTopOf slot) (countOf args) (arrayOf args) (countOf env) (arrayOf env)

theorem Stacked.below {lo : Nat} : ∀ {ps : List Piece} {sp sp' : UInt64}, Stacked sp ps sp' → lo + piecesSize ps ≤ sp.toNat →
    Below lo sp.toNat ps ∧ (∀ p ∈ ps, sp'.toNat ≤ p.1.toNat) ∧ sp'.toNat = sp.toNat - piecesSize ps := by
  intro ps
  induction ps with
  | nil =>
      intro sp sp' h _
      cases h
      exact ⟨trivial, fun p hp => absurd hp List.not_mem_nil, rfl⟩
  | cons p ps ih =>
      intro sp sp' h hfit
      obtain ⟨hp, hlen, hrest⟩ := h
      have hsize : piecesSize (p :: ps) = p.2.length + piecesSize ps := List.sum_cons
      have hlen' : (UInt64.ofNat p.2.length).toNat = p.2.length := UInt64.toNat_ofNat_of_lt' hlen
      have hdst : p.1.toNat = sp.toNat - p.2.length := by
        rw [hp, UInt64.toNat_sub_of_le _ _ (UInt64.le_iff_toNat_le.mpr (by omega)), hlen']
      obtain ⟨hbelow, hall, hend⟩ := ih hrest (by omega)
      refine ⟨⟨by omega, by omega, hbelow⟩, fun q hq => ?_, by omega⟩
      rcases List.mem_cons.mp hq with rfl | hq
      · omega
      · exact hall q hq

/-- The random bytes and the strings. -/
abbrev stringRow (slot : Slot) (args env : List CString) : List Piece :=
  (randAt (stackTopOf slot), randBytes) :: stringPieces (arrayOf env) (countOf env).toNatClampNeg (randAt (stackTopOf slot)) ++
    stringPieces (arrayOf args) (countOf args).toNatClampNeg (envEnd (stackTopOf slot) (countOf env) (arrayOf env))

/-- Where the words begin, below the strings. -/
abbrev wordsTop (slot : Slot) (args env : List CString) : UInt64 :=
  alignDown (argEnd (stackTopOf slot) (countOf args) (arrayOf args) (countOf env) (arrayOf env))

abbrev programWords (slot : Slot) (args env : List CString) : List UInt64 :=
  argvWords (stackTopOf slot) (countOf args) (arrayOf args) (countOf env) (arrayOf env)

/-- The two rows of the frame lie one below the other, in the stack. -/
structure Rows (slot : Slot) (args env : List CString) : Prop where
  args_lt : args.length < 2 ^ 31
  env_lt : env.length < 2 ^ 31
  count : (programWords slot args env).length = args.length + env.length + 9
  strings : Below (programFrame slot args env).sp.toNat (alignDown (stackTopOf slot - 16)).toNat (stringRow slot args env)
  above : ∀ p ∈ stringRow slot args env, (wordsTop slot args env).toNat ≤ p.1.toNat
  words : Below (programFrame slot args env).sp.toNat (wordsTop slot args env).toNat
    (wordPieces (programWords slot args env) (wordsTop slot args env))
  sp : (programFrame slot args env).sp.toNat + 8 * (args.length + env.length + 9) = (wordsTop slot args env).toNat
  bottom : (stackBaseOf slot).toNat ≤ (programFrame slot args env).sp.toNat
  top : (wordsTop slot args env).toNat ≤ (alignDown (stackTopOf slot - 16)).toNat

theorem rows_of_fits (hfit : stackBytes args env ≤ userStackVsize.toNat) : Rows slot args env := by
  have hbase := @stackBaseOf_toNat slot
  have htop := @stackTopOf_toNat slot
  have hstart := @alignDown_top_toNat slot
  have hsize : userStackVsize.toNat = 0x1000000 := by decide
  rw [hsize, stackBytes] at hfit
  have hslot : slot.val < 64 := slot.isLt
  have hargs : args.length < 2 ^ 31 := by omega
  have henv : env.length < 2 ^ 31 := by omega
  have hcount : (programWords slot args env).length = args.length + env.length + 9 := by
    rw [argvWords_length, countOf_toNat hargs, countOf_toNat henv]
  have hrow : Stacked (alignDown (stackTopOf slot - 16)) (stringRow slot args env)
      (argEnd (stackTopOf slot) (countOf args) (arrayOf args) (countOf env) (arrayOf env)) :=
    Stacked.append ⟨rfl, randBytes_length.trans_lt (by decide), stacked_strings⟩ stacked_strings
  have hbytes : piecesSize (stringRow slot args env) = 16 + stringBytes env + stringBytes args := by
    have hcons : ∀ ps, piecesSize ((randAt (stackTopOf slot), randBytes) :: ps) = 16 + piecesSize ps := fun _ => List.sum_cons
    rw [stringRow, List.cons_append, hcons, piecesSize_append, piecesSize_strings, piecesSize_strings, countOf_toNat hargs,
      countOf_toNat henv, stringsSize_arrayOf, stringsSize_arrayOf]
    omega
  obtain ⟨-, -, hend⟩ := hrow.below (show (stackBaseOf slot).toNat + _ ≤ _ by omega)
  have halign : (wordsTop slot args env).toNat = _ / 16 * 16 := alignDown_toNat _
  have hwordsSize : piecesSize (wordPieces (programWords slot args env) (wordsTop slot args env)) =
      8 * (args.length + env.length + 9) := by
    rw [piecesSize_words, hcount]
  obtain ⟨-, -, hsp⟩ := (@stacked_words (programWords slot args env) (wordsTop slot args env)).below
    (show (stackBaseOf slot).toNat + _ ≤ _ by omega)
  have hsp : (programFrame slot args env).sp.toNat = (wordsTop slot args env).toNat - _ := hsp
  obtain ⟨hstrings, habove, -⟩ := hrow.below (show (programFrame slot args env).sp.toNat + _ ≤ _ by omega)
  obtain ⟨hwords, -, -⟩ := (@stacked_words (programWords slot args env) (wordsTop slot args env)).below
    (show (programFrame slot args env).sp.toNat + _ ≤ _ by omega)
  exact ⟨hargs, henv, hcount, hstrings, fun p hp => by have := habove p hp; omega, hwords, by omega, by omega, by omega⟩

/-- The pieces of the frame, one below the other. -/
theorem Rows.below (h : Rows slot args env) : Below (programFrame slot args env).sp.toNat
    (alignDown (stackTopOf slot - 16)).toNat (programFrame slot args env).pieces :=
  h.words.append h.strings h.top h.above

/-- The spans of the strings, in the order of their addresses. -/
theorem Rows.spans (h : Rows slot args env) :
    (stringRow slot args env).reverse.map (fun p => (p.1.toNat, p.2.length)) =
      stringSpans ((stringPtrs (arrayOf args) args.length (envEnd (stackTopOf slot) (countOf env) (arrayOf env)) []).map UInt64.toNat) args ++
        stringSpans ((stringPtrs (arrayOf env) env.length (randAt (stackTopOf slot)) []).map UInt64.toNat) env ++
        [((randAt (stackTopOf slot)).toNat, 16)] := by
  have hspans := fun (strs : List CString) sp => @stringSpans_eq (arrayOf strs) strs.length sp
  simp only [range_arrayOf] at hspans
  rw [hspans, hspans, List.reverse_append, List.reverse_cons, countOf_toNat h.args_lt, countOf_toNat h.env_lt]
  simp only [List.map_append, List.append_assoc]
  rfl

/-- **The frame is read back.** -/
theorem Rows.decodes (h : Rows slot args env) {mem : Bytes} (hmem : Holds mem (programFrame slot args env).pieces) :
    Decodes mem (programFrame slot args env).sp.toNat args env := by
  obtain ⟨hstrings, hwords⟩ := hmem.of_append
  obtain ⟨hrandEnv, hargs⟩ := hstrings.of_append
  have henv : Holds mem (stringPieces (arrayOf env) (countOf env).toNatClampNeg (randAt (stackTopOf slot))) := fun p hp =>
    hrandEnv p (List.mem_cons_of_mem _ hp)
  rw [countOf_toNat h.env_lt] at henv
  rw [countOf_toNat h.args_lt] at hargs
  have hsp := h.sp
  have hlow := h.bottom
  have hbase := @stackBaseOf_toNat slot
  refine ⟨_, _, (randAt (stackTopOf slot)).toNat, ?_, range_arrayOf args ▸ hargs.strings, range_arrayOf env ▸ henv.strings,
    fun p hp => ?_, bytesAt_eq fun j hj => hrandEnv _ List.mem_cons_self j hj, ?_⟩
  · rw [← h.count]
    have hroom : 8 * (programWords slot args env).length ≤ (wordsTop slot args env).toNat := by
      rw [h.count]
      omega
    refine (hwords.words hroom).2.trans ?_
    simp only [argvWords, countOf_toNat h.args_lt, countOf_toNat h.env_lt, List.reverse_append, List.reverse_reverse,
      List.map_append, List.reverse_cons, List.reverse_nil, List.nil_append, List.map_cons, List.map_nil, List.cons_append,
      List.append_assoc, countOf_word h.args_lt]
    rfl
  · -- a string is in the stack, so its address is none of the first ones
    have hptr : ∃ q ∈ stringRow slot args env, q.1.toNat = p := by
      rw [stringRow, countOf_toNat h.args_lt, countOf_toNat h.env_lt]
      rcases List.mem_append.mp hp with hp | hp
      · obtain ⟨ptr, hptr, rfl⟩ := List.mem_map.mp hp
        obtain ⟨q, hq, rfl⟩ := mem_stringPtrs hptr
        exact ⟨q, List.mem_append_right _ hq, rfl⟩
      · obtain ⟨ptr, hptr, rfl⟩ := List.mem_map.mp hp
        obtain ⟨q, hq, rfl⟩ := mem_stringPtrs hptr
        exact ⟨q, List.mem_append_left _ (List.mem_cons_of_mem _ hq), rfl⟩
    obtain ⟨q, hq, rfl⟩ := hptr
    have := h.above q hq
    omega
  · rw [← h.spans]
    refine .cons (fun b hb => ?_) ?_
    · obtain ⟨q, hq, rfl⟩ := List.mem_map.mp hb
      have := h.above q (List.mem_reverse.mp hq)
      dsimp only
      omega
    · rw [List.pairwise_map, List.pairwise_reverse]
      exact h.strings.descending

end Program

/-! ### The calls -/

section Stack

variable {memmap : List MemmapEntry} {kroot : Nat} {roots : Nat → Prop} {r : Nat} {s : Pmm} {kernel space : AddressSpace}
  {cr3 : Nat}

/-- `setup_user_stack_argv` on the lists, through `write`. -/
def programStack (write : UInt64 → List UInt8 → VmmM Unit) (slot : Slot) (args env : List CString) : VmmM UInt64 :=
  setupUserStackArgv write true (stackTopOf slot) (countOf args) (arrayOf args) (countOf env) (arrayOf env)

theorem programStack_run {write : UInt64 → List UInt8 → VmmM Unit} {slot : Slot} {args env : List CString} :
    programStack write slot args env s = (writePieces write (programFrame slot args env).pieces s).map fun q =>
      ((programFrame slot args env).sp, q.2) := by
  rw [programStack, setupUserStackArgv_eq, bind_run]
  cases writePieces write (programFrame slot args env).pieces s <;> rfl

/-- The pages of the stack are not mapped, or to frames of their own. -/
abbrev StackPages (kroot : Nat) (roots : Nat → Prop) (r : Nat) (slot : Slot) (s : Pmm) : Prop :=
  Region kroot roots r ((stackBaseOf slot).toNat / pageSize) ((stackTopOf slot).toNat / pageSize) s

/-- **The initial stack decodes to its arguments**: where no page could not be had, the process reads what the caller gave;
and that is so when there are seven pages for each page of the frame that is not mapped, and three. -/
theorem stack_decodes (hmap : GoodMap memmap) (hkernel : kernel.pml4 = kroot * pageSize) (hcr3 : AnyRoot kroot roots cr3)
    (hr : roots r) (hroot : space.pml4 = r * pageSize) (h : Spaces memmap kroot roots s) (slot : Slot)
    (hreg : StackPages kroot roots r slot s) (args env : List CString) (hfit : stackBytes args env ≤ userStackVsize.toNat) :
    (∀ sp s', programStack (writeSure (userPort kernel space cr3)) slot args env s = some (sp, s') →
      programStack (writeAny (userPort kernel space cr3)) slot args env s = some (sp, s') ∧
        Decodes (memAt s' r) sp.toNat args env) ∧
    (7 * missing r ((programFrame slot args env).sp.toNat / pageSize) ((stackTopOf slot).toNat / pageSize) s + 3 ≤
        s.freePages.card →
      ∃ sp s', programStack (writeSure (userPort kernel space cr3)) slot args env s = some (sp, s')) := by
  have hrows := @rows_of_fits args env slot hfit
  have htop := @stackTopOf_toNat slot
  have hbase := @stackBaseOf_toNat slot
  have hstart := @alignDown_top_toNat slot
  have hslot : slot.val < 64 := slot.isLt
  have hbottom := hrows.bottom
  generalize hlo : (programFrame slot args env).sp.toNat / pageSize = lo
  have hpages : (stackBaseOf slot).toNat / pageSize ≤ lo ∧ lo * pageSize ≤ (programFrame slot args env).sp.toNat ∧
      (stackTopOf slot).toNat / pageSize ≤ 2 ^ 35 ∧ (alignDown (stackTopOf slot - 16)).toNat ≤ (stackTopOf slot).toNat / pageSize * pageSize := by
    simp only [pageSize] at *
    omega
  obtain ⟨hle, hlow, hhigh, hend⟩ := hpages
  have hreg' : Region kroot roots r lo ((stackTopOf slot).toNat / pageSize) s :=
    ⟨fun hq hq' => hreg.apart (hle.trans hq) hq', fun hq hq' hp hp' => hreg.inj (hle.trans hq) hq' (hle.trans hp) hp'⟩
  have hrun := writePieces_run hmap hkernel hcr3 hr hroot hhigh (programFrame slot args env).pieces _ s
    (hrows.below.lower hlow) (by have := hrows.sp; have := hrows.top; omega) hend h hreg'
  refine ⟨fun sp s' hsure => ?_, fun hmany => ?_⟩
  · rw [programStack_run] at hsure
    obtain ⟨⟨⟨⟩, t⟩, hpieces, he⟩ := Option.map_eq_some_iff.mp hsure
    obtain ⟨rfl, rfl⟩ := Prod.mk.inj he
    refine ⟨by rw [programStack_run, writePieces_any _ _ hpieces]; rfl, ?_⟩
    rcases hrun with ⟨hnone, -⟩ | ⟨t', hsome, hlaid, -⟩
    · rw [hpieces] at hnone
      cases hnone
    · rw [hpieces] at hsome
      cases hsome
      exact hrows.decodes hlaid.wrote
  · rcases hrun with ⟨-, hnot⟩ | ⟨t, hsome, -, -⟩
    · exact absurd (.inr hmany) hnot
    · exact ⟨_, t, by rw [programStack_run, hsome]; rfl⟩

end Stack

/-- The stack of `ls` with one variable, in the first space. -/
theorem stack_decodes_ls : ∃ sp s', programStack (writeSure (userPort bootSpace ownSpace 1)) firstSlot [lsName] [lsName] ownPmm =
    some (sp, s') ∧ Decodes (memAt s' 0x12) sp.toNat [lsName] [lsName] := by
  have hnone : ∀ {page}, page < 2 ^ 35 → translate ownPmm 0x12 page = none := created_maps_nothing own_created
  have hreg : StackPages 1 ownRoots 0x12 firstSlot ownPmm := by
    have htop : (stackTopOf firstSlot).toNat / pageSize ≤ 2 ^ 35 := by decide
    refine ⟨fun {page f} _ hpage hf => ?_, fun {page page' f} _ hpage _ _ hf _ => ?_⟩ <;>
      rw [hnone (by omega)] at hf <;> cases hf
  obtain ⟨hdecodes, hruns⟩ := stack_decodes bootMap_good (show bootSpace.pml4 = 1 * pageSize by decide) (.inl rfl) (.inr rfl)
    (show ownSpace.pml4 = 0x12 * pageSize by decide) own_spaces firstSlot hreg [lsName] [lsName] (by decide)
  have hlow : (programFrame firstSlot [lsName] [lsName]).sp.toNat / pageSize + 1 = (stackTopOf firstSlot).toNat / pageSize := by
    decide +kernel
  have hmissing : missing 0x12 ((programFrame firstSlot [lsName] [lsName]).sp.toNat / pageSize)
      ((stackTopOf firstSlot).toNat / pageSize) ownPmm ≤ 1 := by
    refine (Finset.card_filter_le _ _).trans ?_
    rw [Nat.card_Ico]
    omega
  have hfree : 10 ≤ ownPmm.freePages.card := by decide +kernel
  obtain ⟨sp, s', hrun⟩ := hruns (by omega)
  exact ⟨sp, s', hrun, (hdecodes sp s' hrun).2⟩

end Blackmount.Mem
