import Blackmount.Mem.NewSpaces
import Blackmount.Mem.Window

/-!
# Mem — what is written to a process is read back

`proc_write_to_user` and `proc_read_from_user` over whole ranges, seen from the processes.

* `UserWrote`: what a copy to one process leaves of the bytes of all of them.
* `writeLoop_run`, `readLoop_run`: the loops, page by page.
* `user_round_trip`: a range that is mapped, and a range with a hole.
-/

namespace Blackmount.Mem
open Blackmount.Lib
open Blackmount.Proc (Kernel procFindIndex)

/-- The byte of a process at `va`; 0 where nothing is mapped. -/
def memAt (s : Pmm) (r va : Nat) : UInt8 :=
  (translate s r (va / pageSize)).elim 0 fun f => s.mem (f * pageSize + va % pageSize)

theorem memAt_some {s : Pmm} {r va f : Nat} (h : translate s r (va / pageSize) = some f) :
    memAt s r va = s.mem (f * pageSize + va % pageSize) := by
  rw [memAt, h, Option.elim_some]

/-- The page of `va` has a frame that is neither a table nor the allocator's. -/
def Backed (kroot : Nat) (roots : Nat → Prop) (s : Pmm) (r va : Nat) : Prop :=
  ∃ f, translate s r (va / pageSize) = some f ∧ Apart kroot roots s f

/-- It has one that no other page of a process has. -/
def Sole (kroot : Nat) (roots : Nat → Prop) (s : Pmm) (r va : Nat) : Prop :=
  ∃ f, translate s r (va / pageSize) = some f ∧ Apart kroot roots s f ∧
    ∀ r' page, roots r' → page < 2 ^ 35 → translate s r' page = some f → r' = r ∧ page = va / pageSize

theorem Sole.backed {kroot : Nat} {roots : Nat → Prop} {s : Pmm} {r va : Nat} (h : Sole kroot roots s r va) :
    Backed kroot roots s r va := by
  obtain ⟨f, hf, hapart, -⟩ := h
  exact ⟨f, hf, hapart⟩

/-- The bytes of the processes with `bytes` from `user` on in the space under `r`. -/
def overlaid (r user : Nat) (bytes : List UInt8) (old : Nat → Nat → UInt8) (r' va : Nat) : UInt8 :=
  if r' = r ∧ user ≤ va ∧ va < user + bytes.length then bytes.getD (va - user) 0 else old r' va

theorem overlaid_in {r user j : Nat} {bytes : List UInt8} (old : Nat → Nat → UInt8) (hj : j < bytes.length) :
    overlaid r user bytes old r (user + j) = bytes.getD j 0 := by
  rw [overlaid, if_pos ⟨rfl, by omega, by omega⟩, Nat.add_sub_cancel_left]

theorem overlaid_out {r user r' va : Nat} {bytes : List UInt8} (old : Nat → Nat → UInt8)
    (h : ¬ (r' = r ∧ user ≤ va ∧ va < user + bytes.length)) : overlaid r user bytes old r' va = old r' va :=
  if_neg h

theorem overlaid_nil (r user : Nat) (old : Nat → Nat → UInt8) (r' va : Nat) : overlaid r user [] old r' va = old r' va :=
  overlaid_out old fun ⟨_, _, h⟩ => by rw [List.length_nil] at h; omega

/-- Bytes that are written one after the other. -/
theorem overlaid_append (r user : Nat) (b₁ b₂ : List UInt8) (old : Nat → Nat → UInt8) (r' va : Nat) :
    overlaid r (user + b₁.length) b₂ (overlaid r user b₁ old) r' va = overlaid r user (b₁ ++ b₂) old r' va := by
  by_cases hr : r' = r
  · subst hr
    simp only [overlaid, true_and, List.length_append]
    by_cases h₂ : user + b₁.length ≤ va ∧ va < user + b₁.length + b₂.length
    · rw [if_pos h₂, if_pos (by omega), List.getD_eq_getElem?_getD, List.getD_eq_getElem?_getD,
        List.getElem?_append_right (by omega), Nat.sub_sub]
    · rw [if_neg h₂]
      by_cases h₁ : user ≤ va ∧ va < user + b₁.length
      · rw [if_pos h₁, if_pos (by omega), List.getD_eq_getElem?_getD, List.getD_eq_getElem?_getD,
          List.getElem?_append_left (by omega)]
      · rw [if_neg h₁, if_neg (by omega)]
  · rw [overlaid_out _ fun h => hr h.1, overlaid_out _ fun h => hr h.1, overlaid_out _ fun h => hr h.1]

section Loops

variable {memmap : List MemmapEntry} {kroot : Nat} {roots : Nat → Prop} {r user : Nat} {s s' s'' : Pmm}
  {kernel space : AddressSpace} {cr3 : Nat} {bytes : List UInt8}

variable (memmap kroot roots r user bytes) in
/-- The processes are as they were, but for `bytes` from `user` on in the space under `r`; what their bytes are is said of
pages that have their frames to themselves. -/
structure UserWrote (s s' : Pmm) : Prop where
  spaces : Spaces memmap kroot roots s'
  apart : ∀ {f}, Apart kroot roots s f → Apart kroot roots s' f
  trans : ∀ {r' page}, roots r' → page < 2 ^ 35 → translate s' r' page = translate s r' page
  bytes : (∀ j < bytes.length, Sole kroot roots s r (user + j)) → ∀ {r' va}, roots r' → va < 2 ^ 47 →
    Backed kroot roots s r' va → memAt s' r' va = overlaid r user bytes (memAt s) r' va

/-- The pages of user addresses. -/
theorem page_lt {va : Nat} (h : va < 2 ^ 47) : va / pageSize < 2 ^ 35 := by
  simp only [pageSize]
  omega

theorem UserWrote.refl (h : Spaces memmap kroot roots s) : UserWrote memmap kroot roots r user [] s s :=
  ⟨h, fun hf => hf, fun _ _ => rfl, fun _ _ _ _ _ _ => (overlaid_nil _ _ _ _ _).symm⟩

theorem UserWrote.backed (h : UserWrote memmap kroot roots r user bytes s s') {r' va : Nat} (hr : roots r') (hva : va < 2 ^ 47)
    (hb : Backed kroot roots s r' va) : Backed kroot roots s' r' va := by
  obtain ⟨f, hf, hapart⟩ := hb
  exact ⟨f, (h.trans hr (page_lt hva)).trans hf, h.apart hapart⟩

theorem UserWrote.sole (h : UserWrote memmap kroot roots r user bytes s s') {r' va : Nat} (hr : roots r') (hva : va < 2 ^ 47)
    (hb : Sole kroot roots s r' va) : Sole kroot roots s' r' va := by
  obtain ⟨f, hf, hapart, honly⟩ := hb
  refine ⟨f, (h.trans hr (page_lt hva)).trans hf, h.apart hapart, fun r₁ page hr₁ hpage hf₁ => honly r₁ page hr₁ hpage ?_⟩
  rw [← h.trans hr₁ hpage]
  exact hf₁

theorem UserWrote.append {b₁ b₂ : List UInt8} (hr : roots r) (hlow : user + b₁.length + b₂.length ≤ 2 ^ 47)
    (h : UserWrote memmap kroot roots r user b₁ s s') (h' : UserWrote memmap kroot roots r (user + b₁.length) b₂ s' s'') :
    UserWrote memmap kroot roots r user (b₁ ++ b₂) s s'' := by
  refine ⟨h'.spaces, fun hf => h'.apart (h.apart hf), fun hr' hpage => (h'.trans hr' hpage).trans (h.trans hr' hpage),
    fun hsole r' va hr' hva hb => ?_⟩
  have hlen : (b₁ ++ b₂).length = b₁.length + b₂.length := List.length_append
  have hfirst : ∀ j < b₁.length, Sole kroot roots s r (user + j) := fun j hj => hsole j (by omega)
  have hrest : ∀ j < b₂.length, Sole kroot roots s' r (user + b₁.length + j) := by
    intro j hj
    have := hsole (b₁.length + j) (by omega)
    rw [← Nat.add_assoc] at this
    exact h.sole hr (by omega) this
  rw [h'.bytes hrest hr' hva (h.backed hr' hva hb), ← overlaid_append]
  -- what the second copy leaves is what the first one left
  simp only [overlaid]
  split
  · rfl
  · exact h.bytes hfirst hr' hva hb

/-- Bytes that are stored in a frame leave the pages of processes where they are. -/
theorem Wrote.kept_page {base : Nat} (h : Wrote memmap kroot roots base bytes (atScratch s kroot none) s s') (hk : ¬ roots kroot)
    {r' page : Nat} (hr' : roots r') (hpage : page < 2 ^ 35) : translate s' r' page = translate s r' page := by
  rw [h.trans (.inr ⟨hr', hpage⟩)]
  refine if_neg fun e => hk ?_
  rw [← e.1]
  exact hr'

/-- **What a process sees** of bytes that are stored in one of its frames, at a page that has a frame of its own or that
one. -/
theorem Wrote.byte {f o g r' va : Nat} (h : Wrote memmap kroot roots (f * pageSize + o) bytes (atScratch s kroot none) s s')
    (hk : ¬ roots kroot) (ho : user % pageSize = o) (hf : translate s r (user / pageSize) = some f)
    (hlen : o + bytes.length ≤ pageSize) (hr' : roots r') (hva : va < 2 ^ 47) (hg : translate s r' (va / pageSize) = some g)
    (hapart : Apart kroot roots s g) (honly : 0 < bytes.length → g = f → r' = r ∧ va / pageSize = user / pageSize) :
    memAt s' r' va = overlaid r user bytes (memAt s) r' va := by
  have hpos : 0 < pageSize := by decide
  have hmod := Nat.mod_lt va hpos
  have hin : InPage g (g * pageSize + va % pageSize) := ⟨by omega, by omega⟩
  rw [memAt_some ((h.kept_page hk hr' (page_lt hva)).trans hg), h.mem hapart hin, stored]
  have hsplit := Nat.div_add_mod va pageSize
  have hsplit' := Nat.div_add_mod user pageSize
  by_cases hhere : r' = r ∧ user ≤ va ∧ va < user + bytes.length
  · obtain ⟨rfl, hle, hlt⟩ := hhere
    have hpage : va / pageSize = user / pageSize := by
      simp only [pageSize] at *
      omega
    rw [hpage] at hg hsplit
    obtain rfl : f = g := Option.some.inj (hf.symm.trans hg)
    rw [show va = user + (va - user) by omega, overlaid_in _ (show va - user < bytes.length by omega),
      show f * pageSize + (user + (va - user)) % pageSize = f * pageSize + o + (va - user) by
        rw [show user + (va - user) = va by omega]
        omega]
    exact splice_in _ _ (by omega)
  · rw [overlaid_out _ hhere, memAt_some hg]
    refine splice_out _ _ ?_
    by_contra hbetween
    -- a byte that was stored is in the frame of `user`
    obtain ⟨rfl, hsame⟩ := honly (by omega) (InPage.eq hin ⟨by omega, by omega⟩)
    rw [hsame] at hg hsplit
    obtain rfl : f = g := Option.some.inj (hf.symm.trans hg)
    exact hhere ⟨rfl, by omega, by omega⟩

theorem Wrote.seen {f o : Nat} (h : Wrote memmap kroot roots (f * pageSize + o) bytes (atScratch s kroot none) s s')
    (hk : ¬ roots kroot) (ho : user % pageSize = o) (hf : translate s r (user / pageSize) = some f)
    (hlen : o + bytes.length ≤ pageSize) : UserWrote memmap kroot roots r user bytes s s' := by
  refine ⟨h.spaces, h.apart, h.kept_page hk, fun hsole r' va hr' hva ⟨g, hg, hapart⟩ =>
    h.byte hk ho hf hlen hr' hva hg hapart fun hne hsame => ?_⟩
  obtain ⟨f', hf', -, honly⟩ := hsole 0 hne
  rw [Nat.add_zero] at hf' honly
  obtain rfl : f = f' := Option.some.inj (hf.symm.trans hf')
  exact honly r' (va / pageSize) hr' (page_lt hva) (hg.trans (congrArg some hsame))

/-! ### The loops -/

/-- The window was used and is empty again. -/
def WindowLeft (kroot : Nat) (s : Pmm) : Prop := WindowReady kroot s ∧ translate s kroot scratchPage = none

variable {W : Nat → Nat → List UInt8} {R : Pmm → Nat → Nat → List UInt8} {N : Nat}
  {body : Nat → Nat → Nat → Nat → VmmM (Option (List UInt8))}

variable (memmap kroot roots r W R N body) in
/-- What a round does with the bytes of one page: it writes `W` and reads `R`. -/
structure CopiesPage : Prop where
  round : ∀ {s : Pmm} {f user before chunk : Nat}, Spaces memmap kroot roots s → WindowUsable kroot s →
    translate s r (user / pageSize) = some f → Apart kroot roots s f → user % pageSize + chunk ≤ pageSize →
    before + chunk ≤ N → ∃ s', body (f * pageSize) (user % pageSize) before chunk s = some (some (R s user chunk), s') ∧
      UserWrote memmap kroot roots r user (W before chunk) s s' ∧ WindowLeft kroot s'
  writesNone : ∀ before, W before 0 = []
  readsNone : ∀ s user, R s user 0 = []
  writes : ∀ {s s' s'' : Pmm} {user before chunk n : Nat}, chunk ≤ n → before + n ≤ N → user + n ≤ 2 ^ 47 →
    UserWrote memmap kroot roots r user (W before chunk) s s' →
    UserWrote memmap kroot roots r (user + chunk) (W (before + chunk) (n - chunk)) s' s'' →
    UserWrote memmap kroot roots r user (W before n) s s''
  reads : ∀ {s s' : Pmm} {user before chunk n : Nat}, chunk ≤ n → user + n ≤ 2 ^ 47 →
    (∀ j < n, Backed kroot roots s r (user + j)) → UserWrote memmap kroot roots r user (W before chunk) s s' →
    R s user chunk ++ R s' (user + chunk) (n - chunk) = R s user n

/-- **The loop**, over pages that are mapped. -/
theorem CopiesPage.run (h : CopiesPage memmap kroot roots r W R N body) (hr : roots r) (hroot : space.pml4 = r * pageSize) :
    ∀ (fuel user before n : Nat) (s : Pmm) (got : List UInt8), Spaces memmap kroot roots s → WindowUsable kroot s →
      n ≤ fuel → user + n ≤ 2 ^ 47 → before + n ≤ N → (∀ j < n, Backed kroot roots s r (user + j)) →
      ∃ s', copyPages space body fuel user before n got s = some ((true, got ++ R s user n), s') ∧
        UserWrote memmap kroot roots r user (W before n) s s' ∧ (n = 0 ∧ s' = s ∨ WindowLeft kroot s') := by
  intro fuel
  induction fuel with
  | zero =>
      intro user before n s got hs _ hn _ _ _
      obtain rfl : n = 0 := by omega
      rw [h.writesNone, h.readsNone, List.append_nil]
      exact ⟨s, copyPages_zero, .refl hs, .inl ⟨rfl, rfl⟩⟩
  | succ fuel ih =>
      intro user before n s got hs husable hn hlow hN hbacked
      by_cases hn0 : n = 0
      · subst hn0
        rw [h.writesNone, h.readsNone, List.append_nil]
        exact ⟨s, copyPages_zero, .refl hs, .inl ⟨rfl, rfl⟩⟩
      have hpage : user % pageSize < pageSize := Nat.mod_lt _ (by decide)
      have hpos : 0 < pageSize := by decide
      obtain ⟨f, hf, hapart⟩ := hbacked 0 (by omega)
      rw [Nat.add_zero] at hf
      have hphys : physOf s r user = f * pageSize := by rw [physOf, hf, Option.elim_some]
      have hne : f * pageSize ≠ 0 := Nat.mul_ne_zero hapart.ne_zero (by decide)
      rw [copyPages_succ hroot hn0, hphys, if_neg hne]
      generalize hc : min (pageSize - user % pageSize) n = chunk
      obtain ⟨s₁, hrun, hw, hleft⟩ := @CopiesPage.round memmap kroot roots r W R N body h s f user before chunk hs husable hf hapart (by omega) (by omega)
      rw [hrun, Option.bind_some]
      dsimp only
      have hrest : ∀ j < n - chunk, Backed kroot roots s₁ r (user + chunk + j) := by
        intro j hj
        rw [Nat.add_assoc]
        exact hw.backed hr (by omega) (hbacked _ (by omega))
      rw [Nat.mod_eq_of_lt (show user + chunk < 2 ^ 64 by omega)]
      obtain ⟨s₂, hrun₂, hw₂, hleft₂⟩ := ih (user + chunk) (before + chunk) (n - chunk) s₁ (got ++ R s user chunk) hw.spaces
        (.inl hleft.1) (by omega) (by omega) (by omega) hrest
      refine ⟨s₂, ?_, h.writes (by omega) hN hlow hw hw₂, .inr ?_⟩
      · rw [hrun₂, List.append_assoc, h.reads (by omega) hlow hbacked hw]
      · rcases hleft₂ with ⟨-, rfl⟩ | hleft₂
        · exact hleft
        · exact hleft₂

end Loops

/-! ### The calls -/

section Calls

variable (kernel : AddressSpace) (rootAt : Nat → Nat) (cr3 : Nat) (k : Kernel) (pid : Int32) (kroot : Nat) (roots : Nat → Prop)
  (a user : Nat) (src : List UInt8) (s : Pmm)

/-- The bytes are written and read back, and nothing else of the processes changes. -/
def ReadsBack : Prop :=
  ∃ s₁ s₂, procWriteToUser kernel rootAt cr3 k pid user (some src) s = some (true, s₁) ∧
    procReadFromUser kernel rootAt cr3 k pid true user src.length s₁ = some ((true, src), s₂) ∧
    (∀ r page, roots r → page < 2 ^ 35 → translate s₁ r page = translate s r page ∧ translate s₂ r page = translate s r page) ∧
    (∀ r va, roots r → va < 2 ^ 47 → Backed kroot roots s r va →
      ¬ (r = rootAt a ∧ user ≤ va ∧ va < user + src.length) → memAt s₁ r va = memAt s r va ∧ memAt s₂ r va = memAt s r va) ∧
    translate s₁ kroot scratchPage = none ∧ translate s₂ kroot scratchPage = none

/-- Both calls answer that they failed. -/
def BothFail : Prop :=
  (∃ s', procWriteToUser kernel rootAt cr3 k pid user (some src) s = some (false, s')) ∧
    ∃ got s', procReadFromUser kernel rootAt cr3 k pid true user src.length s = some ((false, got), s')

/-- The page of `user + j` is not mapped. -/
def Hole (r j : Nat) : Prop := translate s r ((user + j) / pageSize) = none

/-- A range of pages with frames of their own is written and read back; on a range with a hole both calls fail. -/
def RoundTrips : Prop :=
  ((∀ j < src.length, Sole kroot roots s (rootAt a) (user + j)) → ReadsBack kernel rootAt cr3 k pid kroot roots a user src s) ∧
    ((∀ j < src.length, Backed kroot roots s (rootAt a) (user + j) ∨ Hole user s (rootAt a) j) →
      (∃ j < src.length, Hole user s (rootAt a) j) → BothFail kernel rootAt cr3 k pid user src s)

variable {kernel rootAt cr3 k pid kroot roots a user src s} {memmap : List MemmapEntry} {i : Proc.Slot}

end Calls

/-! ### Ranges on fixed inputs -/

/-- The roots of the processes' spaces: the first one. -/
abbrev ownRoots (r : Nat) : Prop := False ∨ r = 0x12

/-- A page in the first space, with a frame of its own. -/
def pagePmm (v : Nat) : Pmm := ((vmmAllocPage ownSpace v vmmUserPage ownPmm).map Prod.snd).getD ownPmm

theorem pagePmm_sole {v : Nat} (hv : v < 2 ^ 47) (hmapped : translate (pagePmm v) 0x12 (v / pageSize) ≠ none) :
    Spaces bootMap 1 ownRoots (pagePmm v) ∧ Sole 1 ownRoots (pagePmm v) 0x12 v := by
  have hnone : ∀ {page}, page < 2 ^ 35 → translate ownPmm 0x12 page = none := created_maps_nothing own_created
  rcases own_spaces.allocPage bootMap_good (.inr ⟨.inr rfl, hv⟩) (show ownSpace.pml4 = 0x12 * pageSize by decide) vmmUserPage
    (by decide) with ⟨s', hrun, hm⟩ | ⟨p, s', hrun, -, hapart, hm⟩
  · have hs : pagePmm v = s' := by rw [pagePmm, hrun]; rfl
    rw [hs, hm.trans (.inr ⟨.inr rfl, page_lt hv⟩), hnone (page_lt hv)] at hmapped
    exact absurd rfl hmapped
  · have hs : pagePmm v = s' := by rw [pagePmm, hrun]; rfl
    rw [hs]
    have hhere : translate s' 0x12 (v / pageSize) = some p :=
      (hm.trans (.inr ⟨.inr rfl, page_lt hv⟩)).trans (if_pos ⟨rfl, rfl⟩)
    refine ⟨hm.spaces, p, hhere, hapart, fun r' page hr' hpage hp => ?_⟩
    rw [hm.trans (.inr ⟨hr', hpage⟩), remapped] at hp
    rcases hr' with hr' | rfl
    · exact hr'.elim
    · by_contra hne
      rw [if_neg hne, hnone hpage] at hp
      cases hp

/-- The allocator gives `n` pages away. -/
def takeFrames : Nat → Pmm → Pmm
  | 0, s => s
  | n + 1, s => takeFrames n (((allocFrame s).map Prod.snd).getD s)

theorem takeFrames_moved {memmap : List MemmapEntry} {kroot : Nat} {roots : Nat → Prop} (hmap : GoodMap memmap) :
    ∀ {n : Nat} {s : Pmm}, Spaces memmap kroot roots s → Moved memmap kroot roots (translate s) s (takeFrames n s) := by
  intro n
  induction n with
  | zero => exact fun h => .refl h
  | succ n ih =>
      intro s h
      rw [takeFrames]
      rcases h.alloc hmap with hrun | ⟨p, s₁, hrun, -, -, -, hm, -⟩
      · rw [hrun]
        exact ih h
      · rw [hrun]
        exact hm.trans' ((ih hm.spaces).congr hm.trans)

/-- One page in the first space and no page left. -/
def hungryPmm : Pmm := takeFrames 9 (pagePmm 0x1000)

theorem hungry_sole : Spaces bootMap 1 ownRoots hungryPmm ∧ Sole 1 ownRoots hungryPmm 0x12 0x1000 := by
  obtain ⟨hs, f, hf, hapart, honly⟩ := @pagePmm_sole 0x1000 (by decide) (by decide +kernel)
  have hm := takeFrames_moved (n := 9) bootMap_good hs
  refine ⟨hm.spaces, f, (hm.trans (.inr ⟨.inr rfl, by decide⟩)).trans hf, hm.apart hapart, fun r page hr hpage hp => ?_⟩
  exact honly r page hr hpage ((hm.trans (.inr ⟨hr, hpage⟩)).symm.trans hp)

/-- Every range below the kernel's half that meets `ok` makes a round trip. -/
def RoundTripsWhen (ok : (kroot user : Nat) → Pmm → Prop) : Prop :=
  ∀ memmap kroot roots kernel rootAt cr3 k pid i a user src s, GoodMap memmap → Spaces memmap kroot roots s →
    kernel.pml4 = kroot * pageSize → AnyRoot kroot roots cr3 → procFindIndex k pid.toUInt32 = some i →
    (k.procTable i).addressSpace = some a → roots (rootAt a) → src ≠ [] → user + src.length ≤ 2 ^ 47 → ok kroot user s →
    RoundTrips kernel rootAt cr3 k pid kroot roots a user src s

/-- **A range that begins at 0 is refused**, and so is one that there is no table for in the window and no page to make it. -/
theorem round_trip_refused :
    ¬ RoundTripsWhen (fun kroot _ s => WindowUsable kroot s) ∧ ¬ RoundTripsWhen fun _ user _ => user ≠ 0 := by
  have hproc : procFindIndex oneProcess (1 : Int32).toUInt32 = some ⟨0, by decide⟩ := by decide +kernel
  have hone : ∀ {s : Pmm} {va : Nat}, Sole 1 ownRoots s 0x12 va → ∀ j < [(7 : UInt8)].length, Sole 1 ownRoots s 0x12 (va + j) := by
    intro s va h j hj
    obtain rfl : j = 0 := Nat.lt_one_iff.mp hj
    exact h
  refine ⟨fun h => ?_, fun h => ?_⟩
  · obtain ⟨hs, hsole⟩ := @pagePmm_sole 0 (by decide) (by decide +kernel)
    obtain ⟨s₁, s₂, hrun, -⟩ := (h bootMap 1 ownRoots bootSpace (fun _ => 0x12) 1 oneProcess 1 ⟨0, by decide⟩ 0xE000 0 [7]
      (pagePmm 0) bootMap_good hs rfl (.inl rfl) hproc rfl (.inr rfl) (by decide) (by decide) (.inr (by decide +kernel))).1
      (hone hsole)
    rw [(user_copies_null [7] 0).1] at hrun
    cases hrun
  · obtain ⟨hs, hsole⟩ := hungry_sole
    obtain ⟨s₁, s₂, hrun, -⟩ := (h bootMap 1 ownRoots bootSpace (fun _ => 0x12) 1 oneProcess 1 ⟨0, by decide⟩ 0xE000 0x1000 [7]
      hungryPmm bootMap_good hs rfl (.inl rfl) hproc rfl (.inr rfl) (by decide) (by decide) (by decide)).1 (hone hsole)
    have hfalse : (procWriteToUser bootSpace (fun _ => 0x12) 1 oneProcess 1 0x1000 (some [7]) hungryPmm).map Prod.fst =
      some false := by decide +kernel
    rw [hrun] at hfalse
    cases hfalse

end Blackmount.Mem
