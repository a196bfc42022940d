import Blackmount.Mem.EntryArgs
import Blackmount.Mem.Failure

/-!
# Mem — the image of a process in its memory

`proc_create_user_image`, `proc_create_user_image_argv` and `proc_create_user_image_as` over the tables of the new space,
and where the bytes of the image are when they return.

* `mapPages_run`: the loops that map the pages of the image and of the stack.
* `writePieces_spares`: what setting up the stack leaves of the other pages, whether its writes succeed or not.
* `image_placed_iff`: when the image is where it was asked to be.
-/

namespace Blackmount.Mem
open Blackmount.Lib Blackmount.Proc

section Sparing

variable {memmap : List MemmapEntry} {kroot : Nat} {roots : Nat → Prop} {r lo hi : Nat} {s s' s'' : Pmm}
  {kernel space : AddressSpace} {cr3 dst : Nat} {bytes : List UInt8} {written : Nat → Prop}

/-! ### Writes that may fail -/

variable (memmap kroot roots r lo hi written) in
/-- What is mapped of the region is as it was, but for the bytes `written`; and no page is mapped but for them. -/
structure Spares (s s' : Pmm) : Prop where
  spaces : Spaces memmap kroot roots s'
  region : Region kroot roots r lo hi s'
  added : ∀ q, lo ≤ q → q < hi → (∀ va, written va → va / pageSize ≠ q) → translate s' r q = translate s r q
  kept : ∀ va, lo ≤ va / pageSize → va / pageSize < hi → ¬ written va → translate s r (va / pageSize) ≠ none →
    translate s' r (va / pageSize) ≠ none ∧ memAt s' r va = memAt s r va

theorem Spares.refl (h : Spaces memmap kroot roots s) (hreg : Region kroot roots r lo hi s) :
    Spares memmap kroot roots r lo hi written s s := ⟨h, hreg, fun _ _ _ _ => rfl, fun _ _ _ _ hm => ⟨hm, rfl⟩⟩

theorem Spares.trans (h : Spares memmap kroot roots r lo hi written s s')
    (h' : Spares memmap kroot roots r lo hi written s' s'') : Spares memmap kroot roots r lo hi written s s'' := by
  refine ⟨h'.spaces, h'.region, fun q hlo hhi hq => (h'.added q hlo hhi hq).trans (h.added q hlo hhi hq),
    fun va hlo hhi hout hm => ?_⟩
  obtain ⟨hm', hb⟩ := h.kept va hlo hhi hout hm
  obtain ⟨hm'', hb'⟩ := h'.kept va hlo hhi hout hm'
  exact ⟨hm'', hb'.trans hb⟩

theorem Laid.spares (h : Laid memmap kroot roots r lo hi dst bytes s s')
    (hadded : ∀ q, lo ≤ q → q < hi → (∀ va, written va → va / pageSize ≠ q) → translate s' r q = translate s r q)
    (hle : ∀ va, dst ≤ va → va < dst + bytes.length → written va) : Spares memmap kroot roots r lo hi written s s' :=
  ⟨h.spaces, h.region, hadded, fun va hlo hhi hout => h.kept va hlo hhi fun hw => hout (hle va hw.1 hw.2)⟩

/-- **`write_bytes_to_user`**, however it ends. -/
theorem writeLoop_spares (hmap : GoodMap memmap) (hkernel : kernel.pml4 = kroot * pageSize) (hcr3 : AnyRoot kroot roots cr3)
    (hr : roots r) (hroot : space.pml4 = r * pageSize) (htop : hi ≤ 2 ^ 35) : ∀ (fuel dst : Nat) (src : List UInt8) (s : Pmm)
    (b : Bool) (s' : Pmm), src.length ≤ fuel → lo * pageSize ≤ dst → dst + src.length ≤ hi * pageSize →
    (∀ va, dst ≤ va → va < dst + src.length → written va) → Spaces memmap kroot roots s → Region kroot roots r lo hi s →
    writeLoop (userPort kernel space cr3) fuel dst src s = some (b, s') →
    Spares memmap kroot roots r lo hi written s s' := by
  intro fuel
  induction fuel with
  | zero =>
      intro dst src s b s' _ _ _ _ h hreg hrun
      cases hrun
      exact .refl h hreg
  | succ fuel ih =>
      intro dst src s b s' hlen hdst hend hw h hreg hrun
      rw [writeLoop] at hrun
      by_cases hnil : src = []
      · rw [if_pos hnil] at hrun
        cases hrun
        exact .refl h hreg
      have hpos : 0 < src.length := List.length_pos_iff.mpr hnil
      have hoff : dst % pageSize < pageSize := Nat.mod_lt _ (by decide)
      have hsplit : dst / pageSize * pageSize + dst % pageSize = dst := Nat.div_add_mod' dst pageSize
      have hbig : hi * pageSize ≤ 2 ^ 47 := by
        simp only [pageSize]
        omega
      rw [if_neg hnil, show dst - dst % pageSize = dst / pageSize * pageSize by omega] at hrun
      generalize hc : min (pageSize - dst % pageSize) src.length = chunk at hrun
      have htake : (src.take chunk).length = chunk := by
        rw [List.length_take]
        omega
      have hpage : lo ≤ dst / pageSize ∧ dst / pageSize < hi := by
        simp only [pageSize] at *
        omega
      rw [bind_run] at hrun
      rcases @frame_run memmap kroot roots r lo hi s kernel space cr3 dst _ hmap hkernel hcr3 hr hroot htop h hreg hpage.1
        hpage.2 with ⟨s₁, hframe, -, hlaid, hsame⟩ | ⟨f, s₁, hframe, hf, hlaid, -, hsame⟩
      · rw [hframe] at hrun
        cases hrun
        exact hlaid.spares (fun q hlo hhi _ => hsame q hlo hhi) fun va h₁ h₂ => by rw [List.length_nil] at h₂; omega
      rw [hframe, Option.bind_some] at hrun
      simp only at hrun
      rw [bind_run] at hrun
      rcases copy_run hmap hkernel hcr3 hr htop hlaid.spaces hlaid.region hpage.1 hpage.2 hf
        (show src.take chunk ≠ [] from fun e => by rw [e, List.length_nil] at htake; omega)
        (show dst % pageSize + (src.take chunk).length ≤ pageSize by omega) with ⟨hcopy, -⟩ |
          ⟨s₂, hcopy, hlaid₂, -, hsame₂⟩
      · rw [hcopy] at hrun
        cases hrun
      rw [hcopy, Option.bind_some] at hrun
      simp only at hrun
      rw [Nat.mod_eq_of_lt (show dst + chunk < 2 ^ 64 by omega)] at hrun
      rw [hsplit] at hlaid₂
      have hrest := ih (dst + chunk) (src.drop chunk) s₂ b s' (by rw [List.length_drop]; omega) (by omega)
        (by rw [List.length_drop]; omega) (fun va h₁ h₂ => hw va (by omega) (by rw [List.length_drop] at h₂; omega))
        hlaid₂.spaces hlaid₂.region hrun
      have hfirst : Spares memmap kroot roots r lo hi written s s₁ :=
        hlaid.spares (fun q hlo hhi hq => hsame q hlo hhi fun e => hq dst (hw dst (Nat.le_refl _) (by omega)) e.symm)
          fun va h₁ h₂ => by rw [List.length_nil] at h₂; omega
      have hsecond : Spares memmap kroot roots r lo hi written s₁ s₂ :=
        hlaid₂.spares (fun q hlo hhi _ => hsame₂ q hlo hhi) fun va h₁ h₂ => hw va h₁ (by omega)
      exact (hfirst.trans hsecond).trans hrest

/-- **The pieces of a frame**, whichever of them can be written. -/
theorem writePieces_spares (hmap : GoodMap memmap) (hkernel : kernel.pml4 = kroot * pageSize) (hcr3 : AnyRoot kroot roots cr3)
    (hr : roots r) (hroot : space.pml4 = r * pageSize) (htop : hi ≤ 2 ^ 35) : ∀ (ps : List Piece) (s s' : Pmm),
    (∀ p ∈ ps, lo * pageSize ≤ p.1.toNat ∧ p.1.toNat + p.2.length ≤ hi * pageSize ∧
      ∀ va, p.1.toNat ≤ va → va < p.1.toNat + p.2.length → written va) →
    Spaces memmap kroot roots s → Region kroot roots r lo hi s →
    writePieces (writeAny (userPort kernel space cr3)) ps s = some ((), s') →
    Spares memmap kroot roots r lo hi written s s' := by
  intro ps
  induction ps with
  | nil =>
      intro s s' _ h hreg hrun
      cases hrun
      exact .refl h hreg
  | cons p ps ih =>
      intro s s' hall h hreg hrun
      obtain ⟨hlow, hhigh, hw⟩ := hall p List.mem_cons_self
      rw [writePieces_cons] at hrun
      obtain ⟨⟨⟨⟩, s₁⟩, hany, hrest⟩ := Option.bind_eq_some_iff.mp hrun
      rw [writeAny, bind_run] at hany
      obtain ⟨⟨b, s₂⟩, hfirst, he⟩ := Option.bind_eq_some_iff.mp hany
      cases he
      have hspares := writeLoop_spares hmap hkernel hcr3 hr hroot htop p.2.length p.1.toNat p.2 s b s₂ (Nat.le_refl _) hlow
        hhigh hw h hreg hfirst
      exact hspares.trans (ih s₂ s' (fun q hq => hall q (List.mem_cons_of_mem p hq)) hspares.spaces hspares.region hrest)

/-! ### Pages in a row -/

/-- The loops of `proc_create_user_image` and of `user_map_stack` from offset `off` on, with `pages` pages to go.  The loop
for the stack gives `map_user_page` no bytes. -/
def mapPages (kernel space : AddressSpace) (cr3 start : Nat) (src : List UInt8) : Nat → Nat → VmmM Bool
  | 0, _ => return true
  | pages + 1, off => do
      if ← mapUserPage kernel space cr3 ((start + off) % 2 ^ 64) ((src.drop off).take pageSize) then
        mapPages kernel space cr3 start src pages (off + pageSize)
      else return false

/-- The bytes of `pages` pages: those of `src` from `off` on, and zeros. -/
def pageBytes (src : List UInt8) (off pages : Nat) : List UInt8 :=
  (List.range (pages * pageSize)).map fun j => src.getD (off + j) 0

theorem pageBytes_length (src : List UInt8) (off pages : Nat) : (pageBytes src off pages).length = pages * pageSize := by
  rw [pageBytes, List.length_map, List.length_range]

theorem pageBytes_getD {src : List UInt8} {off pages j : Nat} (hj : j < pages * pageSize) :
    (pageBytes src off pages).getD j 0 = src.getD (off + j) 0 := by
  rw [pageBytes, List.getD_eq_getElem?_getD, List.getElem?_map, List.getElem?_range hj]
  rfl

theorem pageBytes_succ (src : List UInt8) (off pages : Nat) :
    pageBytes src off (pages + 1) = pageBytes src off 1 ++ pageBytes src (off + pageSize) pages := by
  rw [pageBytes, pageBytes, pageBytes, Nat.succ_mul, Nat.one_mul, Nat.add_comm (pages * pageSize), List.range_add,
    List.map_append, List.map_map]
  congr 1
  refine List.map_congr_left fun j _ => ?_
  simp only [Function.comp_apply, Nat.add_assoc]

section Mapping

variable {start page : Nat} {src : List UInt8}

/-- **One page**, which was not mapped. -/
theorem mapPage_run (hmap : GoodMap memmap) (hkernel : kernel.pml4 = kroot * pageSize) (hcr3 : AnyRoot kroot roots cr3)
    (hr : roots r) (hroot : space.pml4 = r * pageSize) (htop : hi ≤ 2 ^ 35) (h : Spaces memmap kroot roots s)
    (hreg : Region kroot roots r lo hi s) (hhi : page < hi) (hnone : translate s r page = none) {va : Nat}
    (hva : va / pageSize = page) (off : Nat) :
    (∃ s', mapUserPage kernel space cr3 va ((src.drop off).take pageSize) s = some (false, s') ∧ s.freePages.card < 7) ∨
      ∃ s', mapUserPage kernel space cr3 va ((src.drop off).take pageSize) s = some (true, s') ∧
        Laid memmap kroot roots r lo hi (page * pageSize) (pageBytes src off 1) s s' ∧
        (∀ q < 2 ^ 35, q ≠ page → translate s' r q = translate s r q) ∧
        s.freePages.card ≤ s'.freePages.card + 7 ∧ WindowReady kroot s' := by
  have hlen : ((src.drop off).take pageSize).length ≤ pageSize := List.length_take_le _ _
  have hv : va < 2 ^ 47 := by
    simp only [pageSize] at hva
    omega
  rcases h.mapUserPage hmap hkernel hcr3 hr hv hroot hlen with ⟨s', hrun, -⟩ | ⟨p, s', hrun, hm, hp, hapart, hbytes, htrans⟩
  · have hfew := (h.mapUserPage_count hmap hkernel hcr3 hr hv hroot hlen hrun).2.1 rfl
    exact .inl ⟨s', hrun, by omega⟩
  obtain ⟨hcount, -, hready⟩ := h.mapUserPage_count hmap hkernel hcr3 hr hv hroot hlen hrun
  rw [hva] at htrans
  have hhere : translate s' r page = some p := (htrans hr (by omega)).trans (if_pos ⟨rfl, rfl⟩)
  have hother : ∀ q < 2 ^ 35, q ≠ page → translate s' r q = translate s r q := fun q hq hne =>
    (htrans hr hq).trans (if_neg fun e => hne e.2)
  have hlaid := @Region.fresh memmap kroot roots r lo hi s s' (page * pageSize) page _ hreg hm p hp hapart hnone hhere
    fun q _ hq hne => hother q (by omega) hne
  refine .inr ⟨s', hrun, ⟨hlaid.spaces, hlaid.region, fun j hj => ?_, fun va hvlo hvhi hout => ?_⟩, hother, hcount, hready rfl⟩
  · rw [pageBytes_length, Nat.one_mul] at hj
    have hpage : (page * pageSize + j) / pageSize = page := by
      simp only [pageSize] at *
      omega
    have hmod : (page * pageSize + j) % pageSize = j := by
      simp only [pageSize] at *
      omega
    refine ⟨by rw [hpage, hhere]; exact Option.some_ne_none p, ?_⟩
    rw [memAt_some (by rw [hpage]; exact hhere), hmod, hbytes j hj, pageBytes_getD (by omega),
      List.getD_eq_getElem?_getD, List.getElem?_take_of_lt hj, List.getElem?_drop, ← List.getD_eq_getElem?_getD]
  · refine hlaid.kept va hvlo hvhi fun e => ?_
    rw [List.length_nil] at e
    omega

/-- **Pages in a row**, none of which was mapped: they hold the bytes; or there was no page for one of them. -/
theorem mapPages_run (hmap : GoodMap memmap) (hkernel : kernel.pml4 = kroot * pageSize) (hcr3 : AnyRoot kroot roots cr3)
    (hr : roots r) (hroot : space.pml4 = r * pageSize) (htop : hi ≤ 2 ^ 35) : ∀ (pages off page : Nat) (s : Pmm),
    (start + off) / pageSize = page → lo ≤ page → page + pages ≤ hi → Spaces memmap kroot roots s →
    Region kroot roots r lo hi s → (∀ q, page ≤ q → q < page + pages → translate s r q = none) →
    (∃ s', mapPages kernel space cr3 start src pages off s = some (false, s') ∧ s.freePages.card < 7 * pages) ∨
      ∃ s', mapPages kernel space cr3 start src pages off s = some (true, s') ∧
        Laid memmap kroot roots r lo hi (page * pageSize) (pageBytes src off pages) s s' ∧
        (∀ q < 2 ^ 35, ¬ (page ≤ q ∧ q < page + pages) → translate s' r q = translate s r q) ∧
        s.freePages.card ≤ s'.freePages.card + 7 * pages ∧ (0 < pages → WindowReady kroot s') := by
  intro pages
  induction pages with
  | zero =>
      intro off page s _ _ _ h hreg _
      have hnil : pageBytes src off 0 = [] := by
        rw [pageBytes, Nat.zero_mul]
        rfl
      rw [hnil]
      exact .inr ⟨s, rfl, .refl h hreg, fun _ _ _ => rfl, Nat.le_refl _, fun hpos => absurd hpos (Nat.lt_irrefl 0)⟩
  | succ pages ih =>
      intro off page s hpage hlo hhi h hreg hnone
      have hlt : (start + off) % 2 ^ 64 = start + off := by
        refine Nat.mod_eq_of_lt ?_
        simp only [pageSize] at hpage
        omega
      rw [mapPages, bind_run, hlt]
      rcases mapPage_run hmap hkernel hcr3 hr hroot htop h hreg (by omega) (hnone page (Nat.le_refl _) (by omega)) hpage off
        with ⟨s₁, hrun, hfew⟩ | ⟨s₁, hrun, hlaid, hother, hcount, hready⟩
      · exact .inl ⟨s₁, by rw [hrun]; rfl, by omega⟩
      rw [hrun, Option.bind_some]
      simp only [if_true]
      have hnext : (start + (off + pageSize)) / pageSize = page + 1 := by
        simp only [pageSize] at *
        omega
      rcases ih (off + pageSize) (page + 1) s₁ hnext (by omega) (by omega) hlaid.spaces hlaid.region fun q h₁ h₂ => by
          rw [hother q (by omega) (by omega)]
          exact hnone q (by omega) (by omega) with ⟨s₂, hrun₂, hfew⟩ | ⟨s₂, hrun₂, hlaid₂, hother₂, hcount₂, hready₂⟩
      · exact .inl ⟨s₂, hrun₂, by omega⟩
      refine .inr ⟨s₂, hrun₂, ?_, fun q hq hout => ?_, by omega, fun _ => ?_⟩
      · rw [pageBytes_succ]
        refine Laid.append (fun j hj => ?_) hlaid ?_
        · rw [pageBytes_length, Nat.one_mul] at hj
          simp only [pageSize] at *
          omega
        · rw [pageBytes_length, Nat.one_mul, ← Nat.succ_mul]
          exact hlaid₂
      · rw [hother₂ q hq (by omega), hother q hq (by omega)]
      · cases pages with
        | zero =>
            cases hrun₂
            exact hready
        | succ pages => exact hready₂ (Nat.succ_pos pages)

end Mapping

end Sparing

/-! ### The functions -/

/-- The arguments of the `proc_create_user_image` functions, with the bytes `image` points to: a buffer in the upper half of
the address space. -/
structure ImageSource extends ImageArgs where
  bytes : List UInt8
  size : bytes.length = imageSize.toNat
  fits : bytes.length ≤ 2 ^ 47

/-- `user_map_stack`: the region of the slot the process will get, whose last eight pages are mapped. -/
def userMapStackPages (kernel space : AddressSpace) (cr3 : Nat) (k : Kernel) : VmmM (Option (UInt64 × UInt64 × UInt64)) :=
  match userMapStack k true with
  | none => return none
  | some (stackBase, stackTop, rsp) => do
      let firstStackPage := (stackTop - 8 * 4096) &&& ~~~(4095 : UInt64)
      if ← mapPages kernel space cr3 firstStackPage.toNat [] 8 0 then return some (stackBase, stackTop, rsp)
      else return none

/-- The body the `proc_create_user_image` functions share.  They differ in the owner and in how they set up the stack. -/
def createUserImageWith (kernel : AddressSpace) (cr3 : Nat) (k : Kernel) (owner : Int32) (u : Setup) (img : ImageSource) :
    VmmM (Kernel × Int32) := do
  if imageAccepted img.toImageArgs then
    match ← vmmCreateAddressSpace kernel with
    | none => return (k, -1)
    | some space =>
        let allocSize := Proc.pageUp img.imageSize
        if ← mapPages kernel space cr3 img.loadVaddr.toNat img.bytes (allocSize.toNat / pageSize) 0 then
          match ← userMapStackPages kernel space cr3 k with
          | none =>
              vmmDestroyAddressSpace space
              return (k, -1)
          | some (stackBase, stackTop, _) =>
              let rsp ← u.run (writeAny (userPort kernel space cr3)) stackTop
              let r := procCreateInternal k
                { entry := img.entryVaddr, priority := img.priority, parent := img.parent, type := .user,
                  codeStart := img.loadVaddr, codeEnd := img.loadVaddr + img.imageSize,
                  stackBase := stackBase, stackTop := stackTop, initialRsp := rsp,
                  addressSpace := some space.frame, owner := owner }
              if r.2 < 0 then
                vmmDestroyAddressSpace space
                return (r.1, -1)
              else return r
        else
          vmmDestroyAddressSpace space
          return (k, -1)
  else return (k, -1)

/-- The three functions. -/
inductive ImageCall where
  | image
  | imageArgv (given : Bool) (argc : Int32) (argv : Nat → CString) (envc : Int32) (envp : Nat → CString)
  | imageAs (owner : Int32)

namespace ImageCall

def setup : ImageCall → Setup
  | image => .minimal
  | imageArgv given argc argv envc envp => .argv given argc argv envc envp
  | imageAs _ => .minimal

def owner : ImageCall → Int32
  | imageAs owner => owner
  | _ => 0

def run (kernel : AddressSpace) (cr3 : Nat) (k : Kernel) (img : ImageSource) : ImageCall → VmmM (Kernel × Int32)
  | image => createUserImageWith kernel cr3 k 0 .minimal img
  | imageArgv given argc argv envc envp => createUserImageWith kernel cr3 k 0 (.argv given argc argv envc envp) img
  | imageAs owner =>
      if User.userExists k.users owner then createUserImageWith kernel cr3 k owner .minimal img else return (k, -1)

end ImageCall

/-! ### Where it is put -/

namespace ImageSource

variable (img : ImageSource)

/-- The page of `load_vaddr`. -/
def firstPage : Nat := img.loadVaddr.toNat / pageSize

/-- The pages that are mapped for it. -/
def pages : Nat := (img.bytes.length + 4095) / 4096

/-- The page of the heap: the first one past its end. -/
def heapPage : Nat := (img.loadVaddr.toNat + img.bytes.length + 4095) / 4096

end ImageSource

theorem procPageUp_toNat {x : UInt64} (h : x.toNat + 4095 < 2 ^ 64) : (Proc.pageUp x).toNat = (x.toNat + 4095) / 4096 * 4096 := by
  have hmask := @and_high_toNat (~~~(4095 : UInt64)) 12 (by decide) (by decide) (x + 4095)
  have hsum : (x + 4095).toNat = x.toNat + 4095 := (UInt64.toNat_add x 4095).trans (Nat.mod_eq_of_lt h)
  have hup : Proc.pageUp x = (x + 4095) &&& ~~~(4095 : UInt64) := by
    rw [Proc.pageUp, UInt64.sub_eq_add_neg, UInt64.add_assoc]
    rfl
  rw [hup, hmask, hsum, show 2 ^ 12 = 4096 from rfl]

/-- What the checks say of an image. -/
structure ImageSource.Accepted (img : ImageSource) : Prop where
  nonempty : 0 < img.bytes.length
  low : 0x100000 ≤ img.loadVaddr.toNat
  high : img.loadVaddr.toNat + img.pages * pageSize ≤ 0x20000000

theorem ImageSource.accepted (img : ImageSource) (h : imageAccepted img.toImageArgs = true) : img.Accepted := by
  obtain ⟨⟨⟨⟨-, hsize⟩, hload⟩, -⟩, hend⟩ : (((img.present = true ∧ img.imageSize ≠ 0) ∧
      ¬ (img.loadVaddr < userCodeBase ∨ img.loadVaddr ≥ Proc.userCodeLimit)) ∧
      ¬ (img.entryVaddr < img.loadVaddr ∨ img.entryVaddr ≥ img.loadVaddr + img.imageSize)) ∧
      ¬ (img.loadVaddr + Proc.pageUp img.imageSize > Proc.userCodeLimit) := by
    simpa [imageAccepted] using h
  have hfits := img.fits
  have hlen := img.size
  have hbase : userCodeBase.toNat = 0x100000 := rfl
  have hlimit : Proc.userCodeLimit.toNat = 0x20000000 := rfl
  simp only [UInt64.lt_iff_toNat_lt, UInt64.le_iff_toNat_le, GE.ge, GT.gt, hbase, hlimit, not_or, not_lt, not_le] at hload hend
  have hup := @procPageUp_toNat img.imageSize (by omega)
  have hsum : (img.loadVaddr + Proc.pageUp img.imageSize).toNat = img.loadVaddr.toNat + (Proc.pageUp img.imageSize).toNat :=
    (UInt64.toNat_add _ _).trans (Nat.mod_eq_of_lt (by omega))
  have hpos : img.imageSize.toNat ≠ 0 := fun e => hsize (UInt64.toNat_inj.mp e)
  refine ⟨by omega, hload.1, ?_⟩
  rw [hsum, hup, ← hlen] at hend
  exact hend

/-- The frame is above the image and in the lower half. -/
def Setup.Clears (slot : Slot) (bottom : Nat) (u : Setup) : Prop :=
  ∀ p ∈ (u.frame (stackTopOf slot)).pieces, bottom ≤ p.1.toNat ∧ p.1.toNat + p.2.length ≤ 2 ^ 47

/-- The frame without arguments is in its stack. -/
theorem minimal_clears {bottom : Nat} {slot : Slot} (h : bottom ≤ (stackBaseOf slot).toNat) :
    Setup.Clears slot bottom .minimal := by
  have hall : ∀ slot, ∀ p ∈ (minimalFrame (stackTopOf slot)).pieces,
      (stackBaseOf slot).toNat ≤ p.1.toNat ∧ p.1.toNat + p.2.length ≤ 2 ^ 47 := by decide +kernel
  exact fun p hp => ⟨h.trans (hall slot p hp).1, (hall slot p hp).2⟩

/-- The region of a stack, and its first page that is mapped. -/
theorem userMapStack_region {k : Kernel} {slot : Slot} (h : pcbAllocSlot k = some slot) :
    userMapStack k true = some (stackBaseOf slot, stackTopOf slot, (stackTopOf slot - 16) &&& ~~~(0xF : UInt64)) := by
  have hend : ∀ slot : Slot, ¬ stackTopOf slot > userSpaceEnd := by decide
  rw [userMapStack, h]
  exact (if_neg (hend slot)).trans (if_pos rfl)

theorem firstStackPage_toNat (slot : Slot) :
    ((stackTopOf slot - 8 * 4096) &&& ~~~(4095 : UInt64)).toNat = (0x20FF8 + slot.val * 0x1000) * pageSize := by
  revert slot
  decide

section Running

variable {memmap : List MemmapEntry} {kroot : Nat} {roots : Nat → Prop} {r : Nat} {s s' : Pmm} {kernel space : AddressSpace}
  {cr3 : Nat} {k k' : Kernel} {owner pid : Int32} {u : Setup} {img : ImageSource} {slot : Slot}

variable (img r) in
/-- The pages of the image hold its bytes from the beginning of the first one on, and zeros. -/
structure ImageMapped (s' : Pmm) : Prop where
  holds : ∀ j < img.pages * pageSize, translate s' r ((img.firstPage * pageSize + j) / pageSize) ≠ none ∧
    memAt s' r (img.firstPage * pageSize + j) = img.bytes.getD j 0
  others : ∀ page < img.heapPage, ¬ (img.firstPage ≤ page ∧ page < img.firstPage + img.pages) → translate s' r page = none

/-- **`user_map_stack`** maps eight pages above the image, if it succeeds. -/
theorem userMapStackPages_run (hmap : GoodMap memmap) (hkernel : kernel.pml4 = kroot * pageSize) (hcr3 : AnyRoot kroot roots cr3)
    (hr : roots r) (hroot : space.pml4 = r * pageSize) (h : Spaces memmap kroot roots s)
    (hreg : Region kroot roots r 0 (2 ^ 35) s) (hnone : ∀ q, 0x20000 ≤ q → q < 2 ^ 35 → translate s r q = none) :
    (∃ s', userMapStackPages kernel space cr3 k s = some (none, s') ∧ (pcbAllocSlot k ≠ none → s.freePages.card < 56)) ∨
      ∃ slot rsp s', pcbAllocSlot k = some slot ∧
        userMapStackPages kernel space cr3 k s = some (some (stackBaseOf slot, stackTopOf slot, rsp), s') ∧
        Laid memmap kroot roots r 0 (2 ^ 35) ((0x20FF8 + slot.val * 0x1000) * pageSize) (pageBytes [] 0 8) s s' ∧
        (∀ q < 0x20000, translate s' r q = translate s r q) ∧ WindowReady kroot s' := by
  cases hslot : pcbAllocSlot k with
  | none =>
      refine .inl ⟨s, ?_, fun hne => absurd rfl hne⟩
      rw [userMapStackPages, userMapStack, hslot]
      rfl
  | some slot =>
      have hlt : slot.val < 64 := slot.isLt
      have hpage : ((stackTopOf slot - 8 * 4096) &&& ~~~(4095 : UInt64)).toNat + 0 = (0x20FF8 + slot.val * 0x1000) * pageSize := by
        rw [Nat.add_zero, firstStackPage_toNat]
      simp only [userMapStackPages, userMapStack_region hslot, bind_run]
      rcases @mapPages_run _ _ _ _ _ _ _ _ _ _ [] hmap hkernel hcr3 hr hroot (Nat.le_refl _) 8 0 (0x20FF8 + slot.val * 0x1000) s
        (by rw [hpage, Nat.mul_div_cancel _ (by decide)]) (Nat.zero_le _) (by omega) h hreg
        (fun q h₁ h₂ => hnone q (by omega) (by omega)) with ⟨s', hrun, hfew⟩ | ⟨s', hrun, hlaid, hother, -, hready⟩
      · exact .inl ⟨s', by rw [hrun]; rfl, fun _ => hfew⟩
      · exact .inr ⟨slot, _, s', rfl, by rw [hrun]; rfl, hlaid, fun q hq => hother q (by omega) (by omega), hready (by decide)⟩

variable (owner u img slot) in
/-- What `proc_create_internal` is given for the process whose space is at `f`. -/
abbrev imageArgs (f : Nat) : CreateArgs :=
  { entry := img.entryVaddr, priority := img.priority, parent := img.parent, type := .user,
    codeStart := img.loadVaddr, codeEnd := img.loadVaddr + img.imageSize, stackBase := stackBaseOf slot,
    stackTop := stackTopOf slot, initialRsp := (u.frame (stackTopOf slot)).sp, addressSpace := some f, owner := owner }

variable (k owner u img slot) in
/-- Its control block. -/
abbrev imagePcb (f : Nat) : Pcb := newPcb k.users k.nextPid (imageArgs owner u img slot f)

variable (kernel k owner u img s) in
/-- A process was made in `slot`, in the new space at `f`, whose PML4 is in page `r`. -/
structure ImageCreated (slot : Slot) (f r : Nat) (k' : Kernel) (pid : Int32) (s' : Pmm) : Prop where
  accepted : img.Accepted
  free : pcbAllocSlot k = some slot
  space : ∃ s₁, vmmCreateAddressSpace kernel s = some (some ⟨f, r * pageSize⟩, s₁)
  pcb : k'.procTable slot = imagePcb k owner u img slot f
  pid : pid = k.nextPid.toInt32
  mapped : u.Clears slot (img.heapPage * pageSize) → ImageMapped r img s'

variable (memmap kroot roots kernel k img s) in
/-- The new space before its stack is set up: the pages of the image and of the stack of `slot` are mapped in it. -/
structure ImagePrepared (slot : Slot) (f n : Nat) (s' : Pmm) : Prop where
  accepted : img.Accepted
  free : pcbAllocSlot k = some slot
  space : ∃ s₁, vmmCreateAddressSpace kernel s = some (some ⟨f * pageSize, n * pageSize⟩, s₁)
  spaces : Spaces memmap kroot (fun r => roots r ∨ r = n) s'
  region : Region kroot (fun r => roots r ∨ r = n) n 0 (2 ^ 35) s'
  mapped : ImageMapped n img s'
  stack : translate s' n (0x20FFF + slot.val * 0x1000) ≠ none
  ready : WindowReady kroot s'

variable (k img s) in
/-- There is a slot and memory enough. -/
def ImageProvided : Prop :=
  imageAccepted img.toImageArgs = true ∧ pcbAllocSlot k ≠ none ∧ NotAtNull s ∧ 7 * img.pages + 58 ≤ s.freePages.card

/-- **The new space is prepared**, and what is left is to set up the stack and to enter the process; or the call fails for
want of a slot or of memory. -/
theorem createUserImageWith_prepared (hmap : GoodMap memmap) (hkernel : kernel.pml4 = kroot * pageSize)
    (hcr3 : AnyRoot kroot roots cr3) (h : Spaces memmap kroot roots s) :
    ((∀ k' pid s', createUserImageWith kernel cr3 k owner u img s = some ((k', pid), s') → pid = -1) ∧
        ¬ ImageProvided s k img) ∨
      ∃ slot f n s₁, ImagePrepared memmap kroot roots s kernel k img slot f n s₁ ∧
        createUserImageWith kernel cr3 k owner u img s =
          (writePieces (writeAny (userPort kernel ⟨f * pageSize, n * pageSize⟩ cr3)) (u.frame (stackTopOf slot)).pieces s₁).bind
            fun q => if k.nextPid.toInt32 < 0 then
                (vmmDestroyAddressSpace ⟨f * pageSize, n * pageSize⟩ q.2).map fun t =>
                  (((procCreateInternal k (imageArgs owner u img slot (f * pageSize))).1, -1), t.2)
              else some (procCreateInternal k (imageArgs owner u img slot (f * pageSize)), q.2) := by
  have hfails : ∀ {space t}, ∀ k' pid s', (do vmmDestroyAddressSpace space; return (k, -1) : VmmM (Kernel × Int32)) t =
      some ((k', pid), s') → pid = -1 := by
    intro space t k' pid s' hrun
    rw [bind_run] at hrun
    obtain ⟨⟨⟨⟩, t'⟩, -, he⟩ := Option.bind_eq_some_iff.mp hrun
    cases he
    rfl
  rw [createUserImageWith]
  by_cases hacc : imageAccepted img.toImageArgs = true
  swap
  · rw [if_neg hacc]
    exact .inl ⟨fun k' pid s' hrun => by cases hrun; rfl, fun hprov => hacc hprov.1⟩
  rw [if_pos hacc, bind_run]
  have hok := img.accepted hacc
  rcases @vmmCreateAddressSpace_spec _ kernel _ hmap h.trees.sound h.trees.placed with
    ⟨s₁, hmade, -⟩ | ⟨f, n, s₁, hmade, hc⟩
  · refine .inl ⟨fun k' pid s' hrun => by rw [hmade] at hrun; cases hrun; rfl, fun hprov => ?_⟩
    obtain ⟨x, t, hrun, hfew, -⟩ := (createsCleanly_iff hmap h.trees.sound h.trees.placed kernel).mpr hprov.2.2.1
    rw [hmade] at hrun
    cases hrun
    have := hfew.mp rfl
    have := hprov.2.2.2
    omega
  have h₁ := h.created hmap hkernel hc
  have hnone : ∀ q < 2 ^ 35, translate s₁ n q = none := fun q hq => created_maps_nothing hc hq
  have hreg : Region kroot (fun r => roots r ∨ r = n) n 0 (2 ^ 35) s₁ := by
    refine ⟨fun {page g} _ hq hp => ?_, fun {page page' g} _ hq _ _ hp _ => ?_⟩ <;>
      rw [hnone _ hq] at hp <;> cases hp
  have hcard : s₁.freePages.card + 2 = s.freePages.card := by
    obtain ⟨hf, hn, hne⟩ := hc.pages
    have hfirst := Finset.card_erase_add_one hf
    have hsecond := Finset.card_erase_add_one (Finset.mem_erase.mpr ⟨Ne.symm hne, hn⟩)
    rw [hc.free]
    omega
  have hcr3' : AnyRoot kroot (fun r => roots r ∨ r = n) cr3 := hcr3.imp id .inl
  have hup := @procPageUp_toNat img.imageSize (by have := img.fits; have := img.size; omega)
  have hpages : (Proc.pageUp img.imageSize).toNat / pageSize = img.pages := by
    rw [hup, ← img.size, ImageSource.pages, pageSize, Nat.mul_div_cancel _ (by decide)]
  have hhigh := hok.high
  have hlast : img.firstPage + img.pages ≤ 0x20000 := by
    simp only [ImageSource.firstPage, pageSize] at *
    omega
  rw [hmade, Option.bind_some]
  simp only [hpages]
  rw [bind_run]
  rcases @mapPages_run _ _ _ _ _ _ _ ⟨f * pageSize, n * pageSize⟩ _ img.loadVaddr.toNat img.bytes hmap hkernel hcr3'
    (.inr rfl) rfl (Nat.le_refl _) img.pages 0 img.firstPage s₁ rfl (Nat.zero_le _) (by omega) h₁ hreg
    (fun q _ hq => hnone q (by omega)) with ⟨s₂, hcode, hfew⟩ | ⟨s₂, hcode, hlaid, hother, hcount, -⟩
  · rw [hcode, Option.bind_some]
    refine .inl ⟨hfails, fun hprov => ?_⟩
    have := hprov.2.2.2
    omega
  rw [hcode, Option.bind_some]
  simp only [if_true]
  rw [bind_run]
  rcases @userMapStackPages_run _ _ _ _ _ _ ⟨f * pageSize, n * pageSize⟩ _ k hmap hkernel hcr3' (.inr rfl) rfl hlaid.spaces
    hlaid.region (fun q h₁ h₂ => by rw [hother q h₂ (by omega), hnone q h₂]) with
    ⟨s₃, hstack, hfew⟩ | ⟨slot, rsp, s₃, hslot, hstack, hlaid₃, hother₃, hready⟩
  · rw [hstack, Option.bind_some]
    refine .inl ⟨hfails, fun hprov => ?_⟩
    have := hfew hprov.2.1
    have := hprov.2.2.2
    omega
  rw [hstack, Option.bind_some]
  have hheap : img.firstPage + img.pages ≤ img.heapPage ∧ img.heapPage ≤ 0x20000 := by
    simp only [ImageSource.firstPage, ImageSource.pages, ImageSource.heapPage, pageSize] at *
    omega
  have hlt : slot.val < 64 := slot.isLt
  refine .inr ⟨slot, f, n, s₃, ⟨hok, hslot, ⟨s₁, hmade⟩, hlaid₃.spaces, hlaid₃.region, ⟨fun j hj => ?_, fun page hpage hout => ?_⟩,
    ?_, hready⟩, ?_⟩
  · have hva : (img.firstPage * pageSize + j) / pageSize < 0x20000 := by
      simp only [pageSize] at *
      omega
    have hwrote := hlaid.wrote j (by rw [pageBytes_length]; exact hj)
    rw [pageBytes_getD hj, Nat.zero_add] at hwrote
    obtain ⟨hm, hb⟩ := hlaid₃.kept (img.firstPage * pageSize + j) (Nat.zero_le _) (by omega)
      (by simp only [pageSize] at *; omega) hwrote.1
    exact ⟨hm, by rw [hb, hwrote.2]⟩
  · rw [hother₃ page (by omega), hother page (by omega) hout, hnone page (by omega)]
  · have hlastPage := (hlaid₃.wrote (7 * pageSize) (by rw [pageBytes_length]; decide)).1
    rwa [show ((0x20FF8 + slot.val * 0x1000) * pageSize + 7 * pageSize) / pageSize = 0x20FFF + slot.val * 0x1000 by
      simp only [pageSize]; omega] at hlastPage
  · simp only
    rw [Setup.run_eq, bind_run, bind_run]
    cases writePieces (writeAny (userPort kernel ⟨f * pageSize, n * pageSize⟩ cr3)) (u.frame (stackTopOf slot)).pieces s₃ with
    | none => rfl
    | some q =>
        simp only [Option.bind_some]
        have hresult : (procCreateInternal k (imageArgs owner u img slot (f * pageSize))).2 = k.nextPid.toInt32 := by
          rw [procCreateInternal, hslot]
        show (if (procCreateInternal k (imageArgs owner u img slot (f * pageSize))).2 < 0 then _ else _ : VmmM (Kernel × Int32)) q.2 = _
        rw [hresult]
        by_cases hneg : k.nextPid.toInt32 < 0
        · rw [if_pos hneg, if_pos hneg, bind_run]
          cases vmmDestroyAddressSpace ⟨f * pageSize, n * pageSize⟩ q.2 <;> rfl
        · rw [if_neg hneg, if_neg hneg]
          rfl

/-- **A process that was made** has its image in its pages. -/
theorem createUserImageWith_run (hmap : GoodMap memmap) (hkernel : kernel.pml4 = kroot * pageSize)
    (hcr3 : AnyRoot kroot roots cr3) (h : Spaces memmap kroot roots s)
    (hrun : createUserImageWith kernel cr3 k owner u img s = some ((k', pid), s')) (hpid : 0 ≤ pid) :
    ∃ slot f r, ImageCreated s kernel k owner u img slot f r k' pid s' := by
  rcases @createUserImageWith_prepared memmap kroot roots s kernel cr3 k owner u img hmap hkernel hcr3 h with
    ⟨hfails, -⟩ | ⟨slot, f, n, s₁, hprep, heq⟩
  · rw [hfails k' pid s' hrun] at hpid
    exact absurd hpid (by decide)
  rw [heq] at hrun
  obtain ⟨⟨⟨⟩, s₂⟩, hpieces, hrun⟩ := Option.bind_eq_some_iff.mp hrun
  by_cases hneg : k.nextPid.toInt32 < 0
  · rw [if_pos hneg] at hrun
    obtain ⟨t, -, he⟩ := Option.map_eq_some_iff.mp hrun
    cases he
    exact absurd hpid (by decide)
  rw [if_neg hneg, procCreateInternal, hprep.free] at hrun
  cases hrun
  refine ⟨slot, f * pageSize, n, hprep.accepted, hprep.free, hprep.space, Kernel.modify_same _ _ _, rfl, fun hclear => ?_⟩
  have hhigh := hprep.accepted.high
  have hheap : img.firstPage + img.pages ≤ img.heapPage ∧ img.heapPage ≤ 0x20000 := by
    simp only [ImageSource.firstPage, ImageSource.pages, ImageSource.heapPage, pageSize] at *
    omega
  have hspares := @writePieces_spares _ _ _ _ _ _ _ _ _ (fun va => img.heapPage * pageSize ≤ va) hmap hkernel (hcr3.imp id .inl)
    (.inr rfl) rfl (Nat.le_refl _) (u.frame (stackTopOf slot)).pieces s₁ _ (fun p hp => ⟨by rw [Nat.zero_mul]; exact Nat.zero_le _,
      (hclear p hp).2, fun va hva _ => (hclear p hp).1.trans hva⟩) hprep.spaces hprep.region hpieces
  refine ⟨fun j hj => ?_, fun page hpage hout => ?_⟩
  · have hva : img.firstPage * pageSize + j < img.heapPage * pageSize ∧
        (img.firstPage * pageSize + j) / pageSize < 0x20000 := by
      simp only [pageSize] at *
      omega
    obtain ⟨hm, hb⟩ := hprep.mapped.holds j hj
    obtain ⟨hm', hb'⟩ := hspares.kept (img.firstPage * pageSize + j) (Nat.zero_le _) (by omega) (by omega) hm
    exact ⟨hm', hb'.trans hb⟩
  · rw [hspares.added page (Nat.zero_le _) (by omega) fun va hva => by simp only [pageSize] at *; omega,
      hprep.mapped.others page hpage hout]

/-- The frame without arguments is in the last page of its stack. -/
theorem minimal_below (slot : Slot) : Below ((0x20FFF + slot.val * 0x1000) * pageSize) ((0x20FFF + slot.val * 0x1000 + 1) * pageSize)
    (minimalFrame (stackTopOf slot)).pieces := by
  revert slot
  decide +kernel

/-- **With a slot and memory enough** a process without arguments is made. -/
theorem createUserImageWith_total (hmap : GoodMap memmap) (hkernel : kernel.pml4 = kroot * pageSize)
    (hcr3 : AnyRoot kroot roots cr3) (h : Spaces memmap kroot roots s) (hprov : ImageProvided s k img)
    (hnext : 0 ≤ k.nextPid.toInt32) :
    ∃ k' s', createUserImageWith kernel cr3 k owner .minimal img s = some ((k', k.nextPid.toInt32), s') := by
  rcases @createUserImageWith_prepared memmap kroot roots s kernel cr3 k owner .minimal img hmap hkernel hcr3 h with
    ⟨-, hnot⟩ | ⟨slot, f, n, s₁, hprep, heq⟩
  · exact absurd hprov hnot
  have hlt : slot.val < 64 := slot.isLt
  have hreg : Region kroot (fun r => roots r ∨ r = n) n (0x20FFF + slot.val * 0x1000) (0x20FFF + slot.val * 0x1000 + 1) s₁ :=
    ⟨fun _ hq => hprep.region.apart (Nat.zero_le _) (by omega),
      fun _ hq _ hq' => hprep.region.inj (Nat.zero_le _) (by omega) (Nat.zero_le _) (by omega)⟩
  have hsupplied : Supplied kroot n (0x20FFF + slot.val * 0x1000) (0x20FFF + slot.val * 0x1000 + 1) s₁ := by
    refine .inl ⟨hprep.ready, ?_⟩
    have hnone : missing n (0x20FFF + slot.val * 0x1000) (0x20FFF + slot.val * 0x1000 + 1) s₁ = 0 := by
      rw [missing, Finset.card_eq_zero, Finset.filter_eq_empty_iff]
      intro q hq
      obtain ⟨h₁, h₂⟩ := Finset.mem_Ico.mp hq
      rw [show q = 0x20FFF + slot.val * 0x1000 by omega]
      exact hprep.stack
    rw [hnone]
    exact Nat.zero_le _
  rcases @writePieces_run _ _ _ _ _ _ kernel ⟨f * pageSize, n * pageSize⟩ _ hmap hkernel (hcr3.imp id .inl) (.inr rfl) rfl
    (by omega) (minimalFrame (stackTopOf slot)).pieces _ s₁ (minimal_below slot)
    (Nat.mul_le_mul_right _ (Nat.le_succ _)) (Nat.le_refl _) hprep.spaces hreg with ⟨-, hnot⟩ | ⟨s₂, hpieces, -⟩
  · exact absurd hsupplied hnot
  refine ⟨(procCreateInternal k (imageArgs owner .minimal img slot (f * pageSize))).1, s₂, ?_⟩
  rw [heq, show (Setup.minimal.frame (stackTopOf slot)).pieces = (minimalFrame (stackTopOf slot)).pieces from rfl,
    writePieces_any _ _ hpieces, Option.bind_some, if_neg (Int32.not_lt.mpr hnext), procCreateInternal, hprep.free]

/-! ### When it is where it was asked to be -/

variable (img r) in
/-- The image is at its address, with zeros beside it; the process starts at its entry, and image, heap and stack are apart. -/
structure Placed (pcb : Pcb) (s' : Pmm) : Prop where
  image : ∀ i < img.bytes.length, translate s' r ((img.loadVaddr.toNat + i) / pageSize) ≠ none ∧
    memAt s' r (img.loadVaddr.toNat + i) = img.bytes.getD i 0
  zeros : ∀ va, img.firstPage ≤ va / pageSize → va / pageSize < img.firstPage + img.pages →
    ¬ (img.loadVaddr.toNat ≤ va ∧ va < img.loadVaddr.toNat + img.bytes.length) → memAt s' r va = 0
  entry : pcb.context.rip = img.entryVaddr
  heap : img.loadVaddr.toNat + img.bytes.length ≤ pcb.heapStart.toNat ∧
    (img.firstPage + img.pages) * pageSize ≤ pcb.heapStart.toNat
  stack : pcb.heapStart.toNat ≤ pcb.stackVaddrBase.toNat ∧ pcb.stackVaddrBase.toNat < pcb.stackVaddrTop.toNat

/-- The load address is the beginning of a page; or the image is all zeros and ends in its last page. -/
def ImageSource.LoadsRight (img : ImageSource) : Prop :=
  img.loadVaddr.toNat % pageSize = 0 ∨
    (∀ b ∈ img.bytes, b = 0) ∧ img.loadVaddr.toNat % pageSize + img.bytes.length ≤ img.pages * pageSize

theorem getD_zero {bs : List UInt8} (h : ∀ b ∈ bs, b = 0) (i : Nat) : bs.getD i 0 = 0 := by
  rw [List.getD_eq_getElem?_getD]
  cases hb : bs[i]? with
  | none => rfl
  | some b => exact h b (List.mem_of_getElem? hb)

/-- **The pages begin with the image**, so it is where it was asked to be exactly if that makes no difference. -/
theorem ImageMapped.placed_iff (hm : ImageMapped r img s') (hok : img.Accepted) {pcb : Pcb} {f : Nat}
    (hpcb : pcb = imagePcb k owner u img slot f) : Placed r img pcb s' ↔ img.LoadsRight := by
  have hpos := hok.nonempty
  have hhigh := hok.high
  have hpagesPos : pageSize ≤ img.pages * pageSize ∧ img.bytes.length ≤ img.pages * pageSize := by
    simp only [ImageSource.pages, pageSize]
    omega
  have hsplit : img.loadVaddr.toNat = img.firstPage * pageSize + img.loadVaddr.toNat % pageSize :=
    (Nat.div_add_mod' _ _).symm
  have hoff : img.loadVaddr.toNat % pageSize < pageSize := Nat.mod_lt _ (by decide)
  constructor
  · intro hp
    by_cases hzero : img.loadVaddr.toNat % pageSize = 0
    · exact .inl hzero
    have hends : img.loadVaddr.toNat % pageSize + img.bytes.length ≤ img.pages * pageSize := by
      by_contra hlong
      have hpage : (img.loadVaddr.toNat + (img.pages * pageSize - img.loadVaddr.toNat % pageSize)) / pageSize =
          img.firstPage + img.pages := by
        rw [show img.loadVaddr.toNat + (img.pages * pageSize - img.loadVaddr.toNat % pageSize) =
          (img.firstPage + img.pages) * pageSize by rw [Nat.add_mul]; omega]
        exact Nat.mul_div_cancel _ (by decide)
      refine (hp.image (img.pages * pageSize - img.loadVaddr.toNat % pageSize) (by omega)).1 ?_
      rw [hpage]
      refine hm.others _ ?_ (by omega)
      simp only [ImageSource.heapPage, pageSize] at *
      omega
    have hall : ∀ i, img.bytes.getD i 0 = 0 := by
      intro i
      induction i using Nat.strong_induction_on with
      | _ i ih =>
          by_cases hlen : i < img.bytes.length
          · rw [← (hm.holds i (by omega)).2]
            by_cases hlow : i < img.loadVaddr.toNat % pageSize
            · -- before the address of the image, in its first page
              have hpage : (img.firstPage * pageSize + i) / pageSize = img.firstPage := by
                simp only [pageSize] at *
                omega
              have hone : 0 < img.pages := by
                simp only [ImageSource.pages]
                omega
              exact hp.zeros _ (by omega) (by omega) (by omega)
            · have hshift := (hp.image (i - img.loadVaddr.toNat % pageSize) (by omega)).2
              rw [show img.loadVaddr.toNat + (i - img.loadVaddr.toNat % pageSize) = img.firstPage * pageSize + i by omega]
                at hshift
              rw [hshift, ih _ (by omega)]
          · rw [List.getD_eq_getElem?_getD, List.getElem?_eq_none (Nat.le_of_not_lt hlen)]
            rfl
    refine .inr ⟨fun b hb => ?_, hends⟩
    obtain ⟨i, hi, rfl⟩ := List.getElem_of_mem hb
    have hget := hall i
    rwa [List.getD_eq_getElem?_getD, List.getElem?_eq_getElem hi, Option.getD_some] at hget
  · intro hloads
    have hbytes : ∀ i < img.bytes.length, img.loadVaddr.toNat % pageSize + i < img.pages * pageSize ∧
        img.bytes.getD (img.loadVaddr.toNat % pageSize + i) 0 = img.bytes.getD i 0 := by
      intro i hi
      rcases hloads with hzero | ⟨hall, hends⟩
      · rw [hzero, Nat.zero_add]
        exact ⟨by omega, rfl⟩
      · rw [getD_zero hall, getD_zero hall]
        exact ⟨by omega, rfl⟩
    have hsize := img.size
    have hend : (img.loadVaddr + img.imageSize).toNat = img.loadVaddr.toNat + img.bytes.length := by
      rw [UInt64.toNat_add, hsize]
      exact Nat.mod_eq_of_lt (by omega)
    have hheap : pcb.heapStart.toNat = img.heapPage * pageSize := by
      rw [hpcb]
      refine (procPageUp_toNat (by rw [hend]; omega)).trans ?_
      rw [hend]
      rfl
    have hbase := @stackBaseOf_toNat slot
    have htop := @stackTopOf_toNat slot
    refine ⟨fun i hi => ?_, fun va hlo hhi hout => ?_, by rw [hpcb]; rfl, ?_, ?_⟩
    · obtain ⟨hlt, hsame⟩ := hbytes i hi
      have hh := hm.holds _ hlt
      rw [← hsame]
      rwa [show img.firstPage * pageSize + (img.loadVaddr.toNat % pageSize + i) = img.loadVaddr.toNat + i by omega] at hh
    · have hva : va = img.firstPage * pageSize + (va - img.firstPage * pageSize) ∧
          va - img.firstPage * pageSize < img.pages * pageSize := by
        simp only [pageSize] at *
        omega
      rw [hva.1, (hm.holds _ hva.2).2]
      rcases hloads with hzero | ⟨hall, -⟩
      · rw [List.getD_eq_getElem?_getD, List.getElem?_eq_none (by omega)]
        rfl
      · exact getD_zero hall _
    · rw [hheap]
      simp only [ImageSource.heapPage, ImageSource.firstPage, ImageSource.pages, pageSize]
      omega
    · rw [hheap, hpcb]
      show _ ≤ (stackBaseOf slot).toNat ∧ (stackBaseOf slot).toNat < (stackTopOf slot).toNat
      simp only [ImageSource.heapPage, pageSize] at *
      omega

variable (img slot) in
/-- What `setup_user_stack_argv` lays is above the image. -/
def ImageCall.FrameAbove (c : ImageCall) : Prop :=
  match c with
  | .imageArgv given argc argv envc envp => Setup.Clears slot (img.heapPage * pageSize) (.argv given argc argv envc envp)
  | _ => True

theorem ImageCall.FrameAbove.clears {c : ImageCall} (h : c.FrameAbove img slot) (hok : img.Accepted) :
    c.setup.Clears slot (img.heapPage * pageSize) := by
  have hhigh := hok.high
  have hbase := @stackBaseOf_toNat slot
  have hlow : img.heapPage * pageSize ≤ (stackBaseOf slot).toNat := by
    simp only [ImageSource.heapPage, ImageSource.pages, pageSize] at *
    omega
  cases c with
  | image => exact minimal_clears hlow
  | imageArgv => exact h
  | imageAs => exact minimal_clears hlow

/-- **The placement of an image.**  A process that was made is in a new space, whose pages hold the image; it is at its
address, with zeros beside it, exactly if the address is the beginning of a page, or the image is all zeros and ends in its
last page.  Arguments and environment are not to reach down to the image. -/
theorem image_placed_iff (hmap : GoodMap memmap) (hkernel : kernel.pml4 = kroot * pageSize) (hcr3 : AnyRoot kroot roots cr3)
    (h : Spaces memmap kroot roots s) (c : ImageCall) (hrun : c.run kernel cr3 k img s = some ((k', pid), s')) (hpid : 0 ≤ pid) :
    ∃ slot f r, ImageCreated s kernel k c.owner c.setup img slot f r k' pid s' ∧
      (c.FrameAbove img slot → (Placed r img (k'.procTable slot) s' ↔ img.LoadsRight)) := by
  have hwith : createUserImageWith kernel cr3 k c.owner c.setup img s = some ((k', pid), s') := by
    cases c with
    | image => exact hrun
    | imageArgv => exact hrun
    | imageAs owner =>
        rw [ImageCall.run] at hrun
        split at hrun
        · exact hrun
        · cases hrun
          exact absurd hpid (by decide)
  obtain ⟨slot, f, r, hmade⟩ := createUserImageWith_run hmap hkernel hcr3 h hwith hpid
  exact ⟨slot, f, r, hmade, fun habove => (hmade.mapped (habove.clears hmade.accepted)).placed_iff hmade.accepted hmade.pcb⟩

end Running

/-! ### Images on fixed inputs -/

theorem wideMap_inRange : (0x10000 : UInt64).toNat + (0x80000 : UInt64).toNat ≤ 2 ^ 64 := by decide

/-- 128 usable pages. -/
def wideMap : List MemmapEntry := [⟨0x10000, 0x80000, .usable, wideMap_inRange⟩]

theorem wideMap_good : GoodMap wideMap := by
  refine ⟨by decide, List.pairwise_singleton _ _, ?_⟩
  rintro ⟨e, he, -, hlow, -⟩
  rw [List.mem_singleton.mp he] at hlow
  exact absurd hlow (by decide)

/-- The allocator beside the tables of the boot loader. -/
def widePmm : Pmm := pmmInit wideMap 0xFFFF800000000000 bootTables

theorem wide_spaces : Spaces wideMap 1 (fun _ => False) widePmm := by
  have hb : widePmm.bitmap ≠ 0 := by decide +kernel
  have hpages : ∀ d < 2, d + 1 ∉ widePmm.freePages ∧ ((d + 1) * pageSize + pageSize ≤ widePmm.bitmapPhys ∨
      widePmm.bitmapPhys + widePmm.bitmapSize ≤ (d + 1) * pageSize) := by decide +kernel
  have hinit : widePmm = Pmm.passes wideMap (Pmm.place ⟨bootTables, 0xFFFF800000000000, 0, 18, 144, 0, 0x90000⟩
      (0x10000 + 0xFFFF800000000000)) := by rfl
  exact booted_spaces (pmmInit_sound wideMap_good hb) hb (by decide +kernel)
    (fun n hn i => view_booted hinit rfl ⟨by decide, by decide⟩ (by decide) hn i) hpages

/-- Two bytes that are not zero, at an address. -/
def twoBytes (loadVaddr : UInt64) : ImageSource where
  imageSize := 2
  loadVaddr := loadVaddr
  entryVaddr := loadVaddr
  bytes := [0x90, 0xC3]
  size := rfl
  fits := by decide

theorem wide_provided {va : UInt64} (hacc : imageAccepted (twoBytes va).toImageArgs = true) :
    ImageProvided widePmm oneProcess (twoBytes va) := by
  refine ⟨hacc, by decide, fun f hf _ => ?_, ?_⟩
  · revert f
    decide +kernel
  · have hpages : (twoBytes va).pages = 1 := by simp [ImageSource.pages, twoBytes]
    rw [hpages]
    decide +kernel

/-- At an address in the middle of a page it begins with the page. -/
theorem image_shifted : ∃ k' pid s' slot f r,
    ImageCall.image.run bootSpace 1 oneProcess (twoBytes 0x100800) widePmm = some ((k', pid), s') ∧ 0 ≤ pid ∧
      ImageCreated widePmm bootSpace oneProcess 0 .minimal (twoBytes 0x100800) slot f r k' pid s' ∧
      ¬ Placed r (twoBytes 0x100800) (k'.procTable slot) s' := by
  obtain ⟨k', s', hrun⟩ := @createUserImageWith_total _ _ _ _ _ _ _ 0 _ wideMap_good (show bootSpace.pml4 = 1 * pageSize by decide) (.inl rfl)
    wide_spaces (@wide_provided 0x100800 (by decide)) (by decide)
  obtain ⟨slot, f, r, hmade⟩ := createUserImageWith_run wideMap_good (show bootSpace.pml4 = 1 * pageSize by decide) (.inl rfl)
    wide_spaces hrun (by decide)
  have habove : ImageCall.image.FrameAbove (twoBytes 0x100800) slot := trivial
  refine ⟨k', _, s', slot, f, r, hrun, by decide, hmade, fun hp => ?_⟩
  have hloads := ((hmade.mapped (habove.clears hmade.accepted)).placed_iff hmade.accepted hmade.pcb).mp hp
  rcases hloads with hpage | ⟨hzero, -⟩
  · exact absurd hpage (by decide)
  · exact absurd (hzero _ List.mem_cons_self) (by decide)

/-- At the beginning of a page it is where it was asked to be. -/
theorem image_placed_two : ∃ k' pid s' slot r,
    ImageCall.image.run bootSpace 1 oneProcess (twoBytes 0x100000) widePmm = some ((k', pid), s') ∧
      Placed r (twoBytes 0x100000) (k'.procTable slot) s' := by
  obtain ⟨k', s', hrun⟩ := @createUserImageWith_total _ _ _ _ _ _ _ 0 _ wideMap_good (show bootSpace.pml4 = 1 * pageSize by decide) (.inl rfl)
    wide_spaces (@wide_provided 0x100000 (by decide)) (by decide)
  obtain ⟨slot, f, r, -, hiff⟩ := image_placed_iff wideMap_good (show bootSpace.pml4 = 1 * pageSize by decide) (.inl rfl)
    wide_spaces .image hrun (by decide)
  exact ⟨k', _, s', slot, r, hrun, (hiff trivial).mpr (.inl (by decide))⟩

end Blackmount.Mem
