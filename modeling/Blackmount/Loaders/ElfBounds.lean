import Blackmount.Loaders.Elf

/-!
# Loaders — where a load stores

Every byte that `elf_open_and_load` stores lies in one of its three buffers, unless a segment is let through because its
place in the image wraps around.

* `readSegment_inside`, `readAll_inside`: the stores of one segment, and of all.
* `elf_in_bounds_iff`: a load stays in bounds exactly when no segment runs over.
-/

namespace Blackmount.Loaders
open Blackmount.Lib

namespace RegularFile

variable (f : RegularFile) (base size : UInt64) (ph : Phdr)

/-- The test for the end of the image, in 64 bits. -/
def Fits : Prop := ph.vaddr - base + ph.memsz ≤ size

/-- A segment that `elf_read_segments` goes on after. -/
def Passes : Prop :=
  Fits base size ph ∧ (0 < ph.filesz → ph.offset ≤ 0xFFFFFFFF ∧ f.ReadsFully ph.offset.toUInt32 ph.filesz.toNat)

/-- **A segment that runs over**: it ends beyond 2^64 when it is counted from the start of the image, its end wraps to one
within the image, and the file has bytes for a place outside. -/
structure RunsOver : Prop where
  wraps : 2 ^ 64 ≤ (ph.vaddr - base).toNat + ph.memsz.toNat
  fits : Fits base size ph
  offset : ph.offset ≤ 0xFFFFFFFF
  some : 0 < f.delivered ph.offset.toUInt32 ph.filesz.toNat
  out : size.toNat < (ph.vaddr - base).toNat + f.delivered ph.offset.toUInt32 ph.filesz.toNat

/-- A segment runs over, and all before it pass. -/
def Escapes (segs : List Phdr) : Prop :=
  ∃ before ph after, segs = before ++ ph :: after ∧ (∀ q ∈ before, Passes f base size q) ∧ RunsOver f base size ph

end RegularFile

section Segments

variable {f : RegularFile} {base size : UInt64} {ph : Phdr} {s : Loading}

theorem fits_iff : ¬ ph.vaddr - base + ph.memsz > size ↔ RegularFile.Fits base size ph := UInt64.not_lt

/-- What `elf_read_segments` does with a segment. -/
theorem readSegment_cases :
    (readSegment (.file f) size base ph s = (false, s) ∧ ¬ f.Passes base size ph ∧
        ¬ (RegularFile.Fits base size ph ∧ 0 < ph.filesz ∧ ph.offset ≤ 0xFFFFFFFF)) ∨
      (readSegment (.file f) size base ph s = (true, s) ∧ f.Passes base size ph ∧ ph.filesz = 0) ∨
      RegularFile.Fits base size ph ∧ 0 < ph.filesz ∧ ph.offset ≤ 0xFFFFFFFF ∧
        ∃ b, (b = true ↔ f.Passes base size ph) ∧ readSegment (.file f) size base ph s =
          (b, (putBytes .flatImg (ph.vaddr - base).toNat (f.delivered ph.offset.toUInt32 ph.filesz.toNat)
            (fun j => f.byte (ph.offset.toUInt32.toNat + j)) s).2) := by
  by_cases hfit : ph.vaddr - base + ph.memsz > size
  · exact .inl ⟨congrFun (if_pos hfit) s, fun h => fits_iff.mpr h.1 hfit, fun h => fits_iff.mpr h.1 hfit⟩
  have hfits := fits_iff.mp hfit
  by_cases hsome : ph.filesz > 0
  swap
  · refine .inr (.inl ⟨congrFun ((if_neg hfit).trans (if_neg hsome)) s, ⟨hfits, fun h => absurd h hsome⟩, ?_⟩)
    exact UInt64.le_zero_iff.mp (UInt64.not_lt.mp hsome)
  by_cases hoff : ph.offset > 0xFFFFFFFF
  · exact .inl ⟨congrFun (((if_neg hfit).trans (if_pos hsome)).trans (if_pos hoff)) s,
      fun h => UInt64.not_le.mpr hoff (h.2 hsome).1, fun h => UInt64.not_le.mpr hoff h.2.2⟩
  refine .inr (.inr ⟨hfits, hsome, UInt64.not_lt.mp hoff, decide (f.ReadsFully ph.offset.toUInt32 ph.filesz.toNat), ?_, ?_⟩)
  · rw [decide_eq_true_iff]
    exact ⟨fun h => ⟨hfits, fun _ => ⟨UInt64.not_lt.mp hoff, h⟩⟩, fun h => (h.2 hsome).2⟩
  · exact (congrFun (((if_neg hfit).trans (if_pos hsome)).trans (if_neg hoff)) s).trans elfReadAt_file

/-- **The store of a segment** is inside the image unless the segment runs over. -/
theorem segment_inside (hle : ph.filesz ≤ ph.memsz) (hfits : RegularFile.Fits base size ph) (hoff : ph.offset ≤ 0xFFFFFFFF) :
    (Store.mk .flatImg (ph.vaddr - base).toNat (f.delivered ph.offset.toUInt32 ph.filesz.toNat) size.toNat).Inside ↔
      ¬ f.RunsOver base size ph := by
  have hle' := UInt64.le_iff_toNat_le.mp hle
  have hfits' := UInt64.le_iff_toNat_le.mp hfits
  rw [UInt64.toNat_add] at hfits'
  have hdel := @RegularFile.delivered_le f ph.offset.toUInt32 ph.filesz.toNat
  have hsize := size.toNat_lt
  have hstart := (ph.vaddr - base).toNat_lt
  constructor
  · intro hin hover
    have hout := hover.out
    have hsome := hover.some
    by_cases hstart' : size.toNat ≤ (ph.vaddr - base).toNat
    · have := hin 0 hsome
      rw [Nat.add_zero, Nat.mod_eq_of_lt hstart] at this
      exact absurd this (Nat.not_lt.mpr hstart')
    · have := hin (size.toNat - (ph.vaddr - base).toNat) (by dsimp only; omega)
      dsimp only at this
      rw [Nat.add_sub_cancel' (by omega), Nat.mod_eq_of_lt hsize] at this
      exact absurd this (Nat.lt_irrefl _)
  · intro hno
    by_cases hwraps : 2 ^ 64 ≤ (ph.vaddr - base).toNat + ph.memsz.toNat
    · by_cases hsome : 0 < f.delivered ph.offset.toUInt32 ph.filesz.toNat
      · refine Store.inside_of_le (Nat.not_lt.mp fun hout => hno ⟨hwraps, hfits, hoff, hsome, hout⟩) hsize.le
      · exact fun j hj => absurd (Nat.lt_of_le_of_lt (Nat.zero_le j) hj) hsome
    · refine Store.inside_of_le ?_ hsize.le
      dsimp only
      omega

/-- The first segment runs over, or it passes and one of the others does. -/
theorem escapes_cons {rest : List Phdr} : f.Escapes base size (ph :: rest) ↔
    f.RunsOver base size ph ∨ f.Passes base size ph ∧ f.Escapes base size rest := by
  constructor
  · rintro ⟨before, q, after, heq, hpass, hover⟩
    cases before with
    | nil =>
        cases heq
        exact .inl hover
    | cons p before =>
        cases heq
        exact .inr ⟨hpass _ List.mem_cons_self, before, q, after, rfl, fun x hx => hpass x (List.mem_cons_of_mem _ hx), hover⟩
  · rintro (hover | ⟨hp, before, q, after, rfl, hpass, hover⟩)
    · exact ⟨[], ph, rest, rfl, fun q hq => absurd hq List.not_mem_nil, hover⟩
    · refine ⟨ph :: before, q, after, rfl, fun x hx => ?_, hover⟩
      rcases List.mem_cons.mp hx with rfl | hx
      · exact hp
      · exact hpass x hx

theorem RegularFile.RunsOver.positive (h : f.RunsOver base size ph) : 0 < ph.filesz := by
  have := h.some.trans_le RegularFile.delivered_le
  exact UInt64.lt_iff_toNat_lt.mpr this

/-- Nothing is taken back: what was stored outside stays so. -/
theorem readAll_stores : ∀ {segs : List Phdr} {s : Loading} {w : Store}, w ∈ s.stores →
    w ∈ (readAll (.file f) size base segs s).2.stores := by
  intro segs
  induction segs with
  | nil => intro s w hw; exact hw
  | cons ph rest ih =>
      intro s w hw
      rw [readAll, guarded_run]
      have hkept : w ∈ (readSegment (.file f) size base ph s).2.stores := by
        rcases @readSegment_cases f base size ph s with ⟨hrun, -⟩ | ⟨hrun, -⟩ | ⟨-, -, -, b, -, hrun⟩
        · rwa [hrun]
        · rwa [hrun]
        · rw [hrun, putBytes_stores]
          exact List.mem_append_left _ hw
      split
      · exact ih hkept
      · exact hkept

/-- **The stores of all segments** are inside the buffers unless one runs over. -/
theorem readAll_inside : ∀ {segs : List Phdr} {s : Loading}, Consistent segs → s.Inside → s.size .flatImg = size.toNat →
    ((readAll (.file f) size base segs s).2.Inside ↔ ¬ f.Escapes base size segs) := by
  intro segs
  induction segs with
  | nil =>
      intro s _ hin _
      refine ⟨fun _ ⟨before, ph, after, hnil, _⟩ => ?_, fun _ => hin⟩
      exact absurd hnil (by simp)
  | cons ph rest ih =>
      intro s hok hin hsize
      rw [readAll, guarded_run, escapes_cons]
      rcases @readSegment_cases f base size ph s with ⟨hrun, hno, hnot⟩ | ⟨hrun, hpass, hzero⟩ | ⟨hfits, -, hoff, b, hb, hrun⟩
      · rw [hrun]
        refine ⟨fun _ hesc => ?_, fun _ => hin⟩
        rcases hesc with hover | ⟨hpass, -⟩
        · exact hnot ⟨hover.fits, hover.positive, hover.offset⟩
        · exact hno hpass
      · rw [hrun, if_pos rfl, ih (fun q hq => hok q (List.mem_cons_of_mem _ hq)) hin hsize]
        refine not_congr ⟨fun hesc => .inr ⟨hpass, hesc⟩, fun hesc => ?_⟩
        rcases hesc with hover | ⟨-, hesc⟩
        · exact absurd hover.positive (by rw [hzero]; decide)
        · exact hesc
      · have hstore := segment_inside (f := f) (hok ph List.mem_cons_self) hfits hoff
        rw [hrun]
        by_cases hover : f.RunsOver base size ph
        · refine ⟨fun hall => absurd (hall _ ?_) fun hin => hstore.mp hin hover, fun hno => absurd (.inl hover) hno⟩
          have hmem : Store.mk .flatImg (ph.vaddr - base).toNat (f.delivered ph.offset.toUInt32 ph.filesz.toNat) size.toNat ∈
              (putBytes .flatImg (ph.vaddr - base).toNat (f.delivered ph.offset.toUInt32 ph.filesz.toNat)
                (fun j => f.byte (ph.offset.toUInt32.toNat + j)) s).2.stores := by
            rw [putBytes_stores, hsize]
            exact List.mem_append_right _ List.mem_cons_self
          split
          · exact readAll_stores hmem
          · exact hmem
        · have hin' : (putBytes .flatImg (ph.vaddr - base).toNat (f.delivered ph.offset.toUInt32 ph.filesz.toNat)
              (fun j => f.byte (ph.offset.toUInt32.toNat + j)) s).2.Inside :=
            hin.push putBytes_stores (by rw [hsize]; exact hstore.mpr hover)
          cases b with
          | false => exact ⟨fun _ hesc => hesc.elim hover fun hesc => absurd (hb.mpr hesc.1) (by decide), fun _ => hin'⟩
          | true =>
              rw [if_pos rfl, ih (fun q hq => hok q (List.mem_cons_of_mem _ hq)) hin' hsize]
              exact not_congr ⟨fun hesc => .inr ⟨hb.mp rfl, hesc⟩, fun hesc => hesc.elim (absurd · hover) (·.2)⟩

end Segments

/-! ### Loads -/

/-- What a load promises: its stores are inside its buffers, and the image it hands out holds the entry and ends within
the address space. -/
structure LoadsInBounds (fd : Opened) (phdrsGiven imgGiven : Bool) (mem : Buffer → Bytes) : Prop where
  inside : (elfOpenAndLoad fd phdrsGiven imgGiven (.start mem)).2.Inside
  range : ∀ img, (elfOpenAndLoad fd phdrsGiven imgGiven (.start mem)).1 = some img →
    img.loadBase ≤ img.entry ∧ img.entry.toNat < img.loadBase.toNat + img.flatSize.toNat ∧
      img.loadBase.toNat + img.flatSize.toNat ≤ 2 ^ 64

/-- The image of a file whose range is accepted ends where its last segment does. -/
theorem RegularFile.Prepared.image_end {f : RegularFile} {phdrsGiven imgGiven : Bool} (h : f.Prepared phdrsGiven imgGiven) :
    f.base.toNat + f.imageSize.toNat = f.top.toNat := by
  have hlt := UInt64.lt_iff_toNat_lt.mp (UInt64.lt_of_le_of_lt h.entry.1 h.entry.2)
  rw [RegularFile.imageSize, UInt64.toNat_sub_of_le _ _ (UInt64.le_iff_toNat_le.mpr hlt.le)]
  omega

/-- **A load stays in bounds exactly when no segment runs over** that the load comes to. -/
theorem elf_in_bounds_iff (fd : Opened) (phdrsGiven imgGiven : Bool) (mem : Buffer → Bytes) :
    LoadsInBounds fd phdrsGiven imgGiven mem ↔
      ∀ f, fd = .file f → f.Prepared phdrsGiven imgGiven → ¬ f.Escapes f.base f.imageSize f.segments := by
  cases fd with
  | refused =>
      exact ⟨fun _ _ h => (by cases h), fun _ => ⟨fun _ hw => absurd hw List.not_mem_nil, fun _ h => (by cases h)⟩⟩
  | dir =>
      exact ⟨fun _ _ h => (by cases h), fun _ => ⟨fun _ hw => absurd hw List.not_mem_nil, fun _ h => (by cases h)⟩⟩
  | file f =>
      rcases @elfOpenAndLoad_file f phdrsGiven imgGiven mem with ⟨hno, s', hrun, hin⟩ | ⟨hp, s, hz, hrun⟩
      · refine ⟨fun _ g hg hp => ?_, fun _ => ⟨by rwa [hrun], fun img himg => by rw [hrun] at himg; cases himg⟩⟩
        cases hg
        exact absurd hp hno
      · have hiff := @readAll_inside f f.base f.imageSize f.segments s hp.consistent hz.inside hz.size
        constructor
        · rintro h g hg -
          cases hg
          have hin := h.inside
          rw [hrun] at hin
          exact hiff.mp hin
        · intro h
          refine ⟨by rw [hrun]; exact hiff.mpr (h f rfl hp), fun img himg => ?_⟩
          rw [hrun] at himg
          dsimp only at himg
          split at himg
          · cases himg
            have hend := hp.image_end
            have htop := f.top.toNat_lt
            exact ⟨hp.entry.1, (UInt64.lt_iff_toNat_lt.mp hp.entry.2).trans_eq hend.symm, hend.trans_le htop.le⟩
          · cases himg

/-! ### A file with a wrapped segment -/

/-- A valid header, with its table right after it. -/
def headerBytes (phnum entry : Nat) : Bytes :=
  wr16 (wr16 (wr64 (wr64 (wr16 (wr16 (wr32 (wr32 (fun _ => 0) 0 0x464C457F) 4 0x0102) 16 2) 18 62) 24 entry) 32 sizeofEhdr)
    54 sizeofPhdr) 56 phnum

/-- A PT_LOAD header over the first bytes of the file. -/
def putPhdr (b : Bytes) (o vaddr filesz memsz : Nat) : Bytes :=
  wr64 (wr64 (wr64 (wr32 b o 1) (o + 16) vaddr) (o + 32) filesz) (o + 40) memsz

/-- An image of 16 bytes, and a segment 1 MiB above it that is 1 MiB short of 2^64 bytes long. -/
def wrappedFile : RegularFile where
  size := 176
  byte := putPhdr (putPhdr (headerBytes 2 0x400000) 64 0x400000 0 16) 120 0x500000 8 0xFFFFFFFFFFF00000
  bad := fun _ => false

theorem wrappedFile_stores : (elfOpenAndLoad (.file wrappedFile) true true (.start fun _ _ => 0)).2.stores =
    [⟨.ehdr, 0, 64, 64⟩, ⟨.phdrs, 0, 112, 112⟩, ⟨.flatImg, 0, 16, 16⟩, ⟨.flatImg, 0x100000, 8, 16⟩] := by
  decide +kernel

/-- **Eight bytes are stored 1 MiB behind the image.** -/
theorem elf_out_of_bounds : ¬ LoadsInBounds (.file wrappedFile) true true fun _ _ => 0 := by
  intro h
  have hin := h.inside
  rw [Loading.Inside, wrappedFile_stores] at hin
  exact absurd (hin ⟨.flatImg, 0x100000, 8, 16⟩ (by decide) 0 (by decide)) (by decide)

end Blackmount.Loaders
