import Blackmount.Fat.Ways

/-!
# FAT — safety

A call is safe where it has an outcome: it returns, divides by no zero and makes no access outside a buffer.

* `readLoop_isSome_iff`: the one thing that can go wrong in a read.
* `fatWrite_returns`: nothing can in a write.
* `fat_safe_iff`: the volumes, paths and files with which all calls are safe.
-/

namespace Blackmount.Fat
open Blackmount.Lib

variable {fs : FatFs} {dev dev' : Device} {f f' : FatFile} {fuel : Nat}

/-! ### Files -/

/-- The entry of a file is in its sector, and its numbers are of 32 bits. -/
structure FatFile.Fits (f : FatFile) : Prop where
  offset : f.dirOffset + dirEntryBytes ≤ sectorBytes
  size : f.size < 2 ^ 32
  pos : f.pos < 2 ^ 32

/-- The files of a volume: from `fat_open` and `fat_create`, and as reads and writes leave them. -/
inductive Held (fs : FatFs) : FatFile → Prop
  | opened {fuel : Nat} {dev : Device} {path : Str} {f : FatFile} (h : fatOpen fuel fs dev path = some (some f)) : Held fs f
  | created {fuel : Nat} {dev dev' : Device} {name : Str} {f : FatFile}
      (h : fatCreate fuel fs dev name = some (some f, dev')) : Held fs f
  | read {fuel bytes : Nat} {dev : Device} {buf : List UInt8} {f f' : FatFile} (hf : Held fs f)
      (h : fatRead fuel fs dev f bytes = some (buf, f')) : Held fs f'
  | wrote {fuel n : Nat} {dev dev' : Device} {src : List UInt8} {f f' : FatFile} (hf : Held fs f)
      (h : fatWrite fuel fs dev f src = some (n, f', dev')) : Held fs f'

/-! ### Reads -/

/-- The sector with number `i` of a chain: the chain goes on to its cluster, and it can be read. -/
def SectorThere (fs : FatFs) (dev : Device) (cluster i : Nat) : Prop :=
  (∀ j ≤ i / fs.spc, (fs.next dev)^[j] cluster ≠ endOfChain) ∧
    dev.readable ((fatClusterToSector fs ((fs.next dev)^[i / fs.spc] cluster) + i % fs.spc) % 2 ^ 32)

variable {cur off left m room : Nat} {buf : List UInt8}

theorem sectorThere_next (hspc : 0 < fs.spc) (hcur : cur ≠ endOfChain) (i : Nat) :
    SectorThere fs dev (fs.next dev cur) i ↔ SectorThere fs dev cur (fs.spc + i) := by
  have hdiv : (fs.spc + i) / fs.spc = i / fs.spc + 1 := Nat.add_div_left i hspc
  have hmod : (fs.spc + i) % fs.spc = i % fs.spc := Nat.add_mod_left fs.spc i
  rw [SectorThere, SectorThere, hdiv, hmod]
  refine and_congr ⟨fun h j hj => ?_, fun h j hj => h (j + 1) (Nat.succ_le_succ hj)⟩ Iff.rfl
  cases j with
  | zero => exact hcur
  | succ j => exact h j (Nat.le_of_succ_le_succ hj)

theorem sectorThere_first (hi : off / 512 < fs.spc) : SectorThere fs dev cur (off / 512) ↔
    cur ≠ endOfChain ∧ dev.readable ((fatClusterToSector fs cur + off / 512) % 2 ^ 32) := by
  rw [SectorThere, Nat.div_eq_of_lt hi, Nat.mod_eq_of_lt hi]
  exact and_congr ⟨fun h => h 0 (Nat.le_refl 0), fun h j hj => by cases Nat.le_zero.mp hj; exact h⟩ Iff.rfl

theorem readLoop_mono {fuel' : Nat} (hle : fuel ≤ fuel') {r : List UInt8}
    (hr : readLoop fs dev room fuel cur off left buf = some r) : readLoop fs dev room fuel' cur off left buf = some r := by
  induction fuel generalizing fuel' cur off left buf with
  | zero => cases hr
  | succ fuel ih =>
      cases fuel' with
      | zero => exact absurd hle (Nat.not_succ_le_zero fuel)
      | succ fuel' =>
          have hle := Nat.le_of_succ_le_succ hle
          rw [readLoop] at hr ⊢
          split at hr
          · next hend => rwa [if_pos hend]
          · next hgo =>
              rw [if_neg hgo]
              split at hr
              · next hout =>
                  rw [if_pos hout]
                  obtain ⟨next, hnext, hr⟩ := Option.bind_eq_some_iff.mp hr
                  exact Option.bind_eq_some_iff.mpr ⟨next, hnext, ih hle hr⟩
              · next hin =>
                  rw [if_neg hin]
                  cases hread : dev.read ((fatClusterToSector fs cur + off / fs.bps) % 2 ^ 32) with
                  | none => rwa [hread] at hr
                  | some sector =>
                      rw [hread] at hr
                      obtain ⟨_, haccess, hr⟩ := Option.bind_eq_some_iff.mp hr
                      refine Option.bind_eq_some_iff.mpr ⟨_, haccess, ?_⟩
                      split at hr
                      · cases hr
                      · next hfits =>
                          rw [if_neg hfits]
                          exact ih hle hr

/-- **What can go wrong in a read**: more is wanted than there is room for, and the chain has it. -/
theorem readLoop_isSome_iff (h : fs.bps = 512) (hspc : 0 < fs.spc) (hoff : off ≤ fs.spc * 512)
    (hroom : buf.length + m = room) (hfuel : 2 * left + off / (fs.spc * 512) < fuel) :
    (readLoop fs dev room fuel cur off left buf).isSome ↔
      ¬ (m < left ∧ ∀ i, off / 512 ≤ i → i ≤ (off + m) / 512 → SectorThere fs dev cur i) := by
  induction fuel generalizing cur off left m buf with
  | zero => exact absurd hfuel (Nat.not_lt_zero _)
  | succ fuel ih =>
      have hself : off / 512 ≤ (off + m) / 512 := Nat.div_le_div_right (Nat.le_add_right off m)
      rw [readLoop, h]
      split
      · next hend =>
          refine iff_of_true rfl ?_
          rintro ⟨hlt, hthere⟩
          rcases hend with rfl | rfl
          · exact Nat.not_lt_zero m hlt
          · exact (hthere _ (Nat.le_refl _) hself).1 0 (Nat.zero_le _) rfl
      · next hgo =>
          rw [not_or] at hgo
          split
          · next hout =>
              -- the next cluster
              have heq : off = fs.spc * 512 := by omega
              subst heq
              have hone : fs.spc * 512 / 512 = fs.spc := Nat.mul_div_cancel _ (by decide)
              rw [Nat.div_self (by omega)] at hfuel
              rw [fatGetNextCluster_eq h, Option.bind_eq_bind, Option.bind_some,
                ih (Nat.zero_le _) hroom (by rw [Nat.zero_div]; omega), hone]
              refine not_congr (and_congr Iff.rfl ⟨fun hthere i hle hi => ?_, fun hthere i _ hi => ?_⟩)
              · obtain ⟨k, rfl⟩ := Nat.exists_eq_add_of_le hle
                exact (sectorThere_next hspc hgo.2 k).mp (hthere k (by omega) (by omega))
              · exact (sectorThere_next hspc hgo.2 i).mpr (hthere (fs.spc + i) (by omega) (by omega))
          · next hin =>
              have hin : off / 512 < fs.spc := Nat.not_le.mp hin
              have hfirst := @sectorThere_first fs dev cur off hin
              cases hread : dev.read ((fatClusterToSector fs cur + off / 512) % 2 ^ 32) with
              | none =>
                  refine iff_of_true rfl ?_
                  rintro ⟨-, hthere⟩
                  have hyes := (hfirst.mp (hthere _ (Nat.le_refl _) hself)).2
                  rw [Device.read, if_pos hyes] at hread
                  cases hread
              | some sector =>
                  have hyes : SectorThere fs dev cur (off / 512) := by
                    refine hfirst.mpr ⟨hgo.2, ?_⟩
                    by_contra hno
                    rw [Device.read, if_neg hno] at hread
                    cases hread
                  dsimp only
                  generalize hn : min (512 - off % 512) left = n
                  rw [access_le (by omega), Option.bind_eq_bind, Option.bind_some]
                  split
                  · next hover =>
                      refine iff_of_false Bool.false_ne_true fun hno => hno ⟨by omega, fun i hle hi => ?_⟩
                      have : i = off / 512 := by omega
                      rwa [this]
                  · next hfits =>
                      have hpos : 0 < n := by omega
                      have hnext : off + n ≤ fs.spc * 512 := by omega
                      have hwithin : off / (fs.spc * 512) = 0 := Nat.div_eq_of_lt (by omega)
                      have hlast : (off + n) / (fs.spc * 512) ≤ 1 :=
                        (Nat.div_le_div_right hnext).trans (Nat.div_self (by omega)).le
                      have hlen : (buf ++ (List.range n).map fun k => sector (off % 512 + k)).length + (m - n) = room := by
                        rw [List.length_append, List.length_map, List.length_range]
                        omega
                      rw [@ih cur (off + n) (left - n) (m - n) _ hnext hlen (by omega), not_iff_not]
                      by_cases hlt : m < left
                      · -- the sector was read to its end
                        refine and_congr (iff_of_true (by omega) hlt) ⟨fun hthere i hle hi => ?_, fun hthere i hle hi => ?_⟩
                        · by_cases hi' : i = off / 512
                          · rwa [hi']
                          · exact hthere i (by omega) (by omega)
                        · exact hthere i (by omega) (by omega)
                      · exact iff_of_false (fun hno => hlt (by omega)) fun hno => hlt hno.1

/-- The cluster where the position of a read is. -/
def Skips (fs : FatFs) (dev : Device) (n cluster cur : Nat) : Prop :=
  cur = (fs.next dev)^[n] cluster ∧ ∀ j, 0 < j → j ≤ n → (fs.next dev)^[j] cluster ≠ endOfChain

theorem readSkip_eq (h : fs.bps = 512) (n cluster : Nat) :
    ∃ r, readSkip fs dev n cluster = some r ∧ ∀ cur, r = some cur ↔ Skips fs dev n cluster cur := by
  induction n generalizing cluster with
  | zero =>
      refine ⟨_, rfl, fun cur => ?_⟩
      rw [Option.some.injEq, eq_comm]
      exact ⟨fun heq => ⟨heq, fun j hj hle => absurd hle (Nat.not_le.mpr hj)⟩, fun hs => hs.1⟩
  | succ n ih =>
      rw [readSkip, fatGetNextCluster_eq h, Option.bind_eq_bind, Option.bind_some]
      split
      · next hend =>
          refine ⟨none, rfl, fun cur => iff_of_false (Option.some_ne_none cur).symm fun hs => ?_⟩
          exact hs.2 1 Nat.one_pos (Nat.succ_le_succ (Nat.zero_le n)) hend
      · next hgo =>
          obtain ⟨r, hr, hiff⟩ := ih (fs.next dev cluster)
          refine ⟨r, hr, fun cur => (hiff cur).trans (and_congr Iff.rfl ⟨fun hall j hj hle => ?_, fun hall j hj hle => ?_⟩)⟩
          · cases j with
            | zero => exact absurd hj (Nat.lt_irrefl 0)
            | succ j =>
                cases j with
                | zero => exact hgo
                | succ j => exact hall (j + 1) (Nat.succ_pos j) (Nat.le_of_succ_le_succ hle)
          · exact hall (j + 1) (Nat.succ_pos j) (Nat.succ_le_succ hle)

/-- A read from behind the end of the file, where the chain goes on for more than the bytes that are asked for. -/
def ReadsOver (fs : FatFs) (dev : Device) (f : FatFile) (bytes : Nat) : Prop :=
  0 < bytes ∧ f.size < f.pos ∧ f.pos + bytes < 2 ^ 32 ∧
    ∃ cur, Skips fs dev (f.pos / (fs.spc * 512)) f.cluster cur ∧
      ∀ i, f.pos % (fs.spc * 512) / 512 ≤ i → i ≤ (f.pos % (fs.spc * 512) + bytes) / 512 → SectorThere fs dev cur i

/-- The bytes that a read is for. -/
def wanted (f : FatFile) (bytes : Nat) : Nat :=
  if f.size < (f.pos + bytes) % 2 ^ 32 then (f.size + 2 ^ 32 - f.pos) % 2 ^ 32 else bytes

theorem lt_wanted_iff (hf : f.Fits) {bytes : Nat} (hbytes : bytes < 2 ^ 32) :
    bytes < wanted f bytes ↔ f.size < f.pos ∧ f.pos + bytes < 2 ^ 32 := by
  have hsize := hf.size
  have hpos := hf.pos
  rw [wanted]
  split <;> omega

theorem fatRead_isSome_iff (h : fs.bps = 512) {bytes : Nat} :
    (fatRead fuel fs dev f bytes).isSome ↔ bytes = 0 ∨ ∀ cur, Skips fs dev (f.pos / (fs.spc * 512)) f.cluster cur →
      wanted f bytes = 0 ∨ (readLoop fs dev bytes fuel cur (f.pos % (fs.spc * 512)) (wanted f bytes) []).isSome := by
  obtain ⟨r, hr, hskip⟩ := @readSkip_eq fs dev h (f.pos / (fs.spc * 512)) f.cluster
  rw [fatRead, ← wanted, h]
  split
  · next hnone => exact iff_of_true rfl (hnone.imp_right fun hzero cur _ => .inl hzero)
  · next hsome =>
      rw [not_or] at hsome
      rw [hr, or_iff_right hsome.1]
      cases r with
      | none =>
          refine iff_of_true rfl fun cur hcur => ?_
          exact absurd ((hskip cur).mpr hcur).symm (Option.some_ne_none cur)
      | some cur =>
          have hone : ∀ cur', Skips fs dev (f.pos / (fs.spc * 512)) f.cluster cur' ↔ cur' = cur :=
            fun cur' => (hskip cur').symm.trans (by rw [Option.some.injEq, eq_comm])
          simp only [hone, forall_eq, or_iff_right hsome.2, Option.bind_eq_bind, Option.bind_some]
          cases readLoop fs dev bytes fuel cur (f.pos % (fs.spc * 512)) (wanted f bytes) [] <;> rfl

theorem fatRead_returns_iff (h : fs.bps = 512) (hspc : 0 < fs.spc) (hf : f.Fits) {bytes : Nat} (hbytes : bytes < 2 ^ 32) :
    (∃ fuel, (fatRead fuel fs dev f bytes).isSome) ↔ ¬ ReadsOver fs dev f bytes := by
  have hoff : f.pos % (fs.spc * 512) < fs.spc * 512 := Nat.mod_lt _ (by omega)
  have hloop : ∀ cur fuel, 2 * wanted f bytes < fuel →
      ((readLoop fs dev bytes fuel cur (f.pos % (fs.spc * 512)) (wanted f bytes) []).isSome ↔
        ¬ (bytes < wanted f bytes ∧ ∀ i, f.pos % (fs.spc * 512) / 512 ≤ i →
          i ≤ (f.pos % (fs.spc * 512) + bytes) / 512 → SectorThere fs dev cur i)) := by
    intro cur fuel hfuel
    refine readLoop_isSome_iff h hspc hoff.le (Nat.zero_add bytes) ?_
    rwa [Nat.div_eq_of_lt hoff]
  simp only [fatRead_isSome_iff h]
  constructor
  · rintro ⟨fuel, hsafe⟩ ⟨hpos, hbehind, hsum, cur, hcur, hthere⟩
    have hlt := (lt_wanted_iff hf hbytes).mpr ⟨hbehind, hsum⟩
    rcases (hsafe.resolve_left hpos.ne') cur hcur with hzero | hsome
    · omega
    · obtain ⟨r, hr⟩ := Option.isSome_iff_exists.mp hsome
      have hmore := readLoop_mono (Nat.le_max_left fuel (2 * wanted f bytes + 1)) hr
      exact (hloop cur _ (Nat.le_max_right _ _)).mp (Option.isSome_iff_exists.mpr ⟨r, hmore⟩) ⟨hlt, hthere⟩
  · intro hsafe
    refine ⟨2 * wanted f bytes + 1, ?_⟩
    by_cases hzero : bytes = 0
    · exact .inl hzero
    · refine .inr fun cur hcur => .inr ((hloop cur _ (Nat.lt_succ_self _)).mpr ?_)
      rintro ⟨hlt, hthere⟩
      obtain ⟨hbehind, hsum⟩ := (lt_wanted_iff hf hbytes).mp hlt
      exact hsafe ⟨Nat.pos_of_ne_zero hzero, hbehind, hsum, cur, hcur, hthere⟩

/-! ### Writes -/

theorem fatFindFreeCluster_some (h : fs.bps = 512) (dev : Device) : ∃ c, fatFindFreeCluster fs dev = some c :=
  findFree_some h dev _ _

theorem extend_some (h : fs.bps = 512) (dev : Device) (cur : Nat) : ∃ r, extend fs dev cur = some r := by
  rw [extend, fatGetNextCluster_eq h, Option.bind_eq_bind, Option.bind_some]
  split
  · obtain ⟨c, hc⟩ := fatFindFreeCluster_some h dev
    rw [hc, Option.bind_eq_bind, Option.bind_some]
    split
    · exact ⟨_, rfl⟩
    · obtain ⟨dev₁, h₁⟩ := fatSetFatEntry_some h dev cur c
      obtain ⟨dev₂, h₂⟩ := fatSetFatEntry_some h dev₁ c endOfChain
      exact ⟨(some c, dev₂), by rw [h₁, Option.bind_some, h₂]; rfl⟩
  · exact ⟨_, rfl⟩

theorem writeSkip_some (h : fs.bps = 512) (n : Nat) (dev : Device) (cur : Nat) : ∃ r, writeSkip fs n dev cur = some r := by
  induction n generalizing dev cur with
  | zero => exact ⟨_, rfl⟩
  | succ n ih =>
      obtain ⟨⟨next, dev'⟩, hr⟩ := extend_some h dev cur
      rw [writeSkip, hr]
      cases next with
      | none => exact ⟨_, rfl⟩
      | some next => exact ih dev' next

theorem firstCluster_some (h : fs.bps = 512) (dev : Device) (f : FatFile) : ∃ r, firstCluster fs dev f = some r := by
  rw [firstCluster]
  split
  · exact ⟨_, rfl⟩
  · obtain ⟨c, hc⟩ := fatFindFreeCluster_some h dev
    rw [hc, Option.bind_eq_bind, Option.bind_some]
    split
    · exact ⟨_, rfl⟩
    · obtain ⟨dev', h'⟩ := fatSetFatEntry_some h dev c endOfChain
      exact ⟨some ({ f with cluster := c }, dev'), by rw [h']; rfl⟩

/-- Each turn of the loop writes a byte at least. -/
theorem writeLoop_some (h : fs.bps = 512) {src : List UInt8} {written : Nat} (hfuel : src.length < fuel) :
    ∃ r, writeLoop fs fuel dev f cur src written = some r := by
  induction fuel generalizing dev f cur src written with
  | zero => exact absurd hfuel (Nat.not_lt_zero _)
  | succ fuel ih =>
      rw [writeLoop, h]
      split
      · exact ⟨_, rfl⟩
      · next hsrc =>
          have hlen : 0 < src.length := List.length_pos_of_ne_nil hsrc
          dsimp only
          cases dev.read ((fatClusterToSector fs cur + f.pos % (fs.spc * 512) / 512) % 2 ^ 32) with
          | none => exact ⟨_, rfl⟩
          | some sector =>
              dsimp only
              generalize hn : min (512 - f.pos % (fs.spc * 512) % 512) src.length = n
              rw [access_le (by omega), Option.bind_eq_bind, Option.bind_some]
              have hdrop : (src.drop n).length < fuel := by
                rw [List.length_drop]
                omega
              cases dev.write ((fatClusterToSector fs cur + f.pos % (fs.spc * 512) / 512) % 2 ^ 32)
                  (splice sector (f.pos % (fs.spc * 512) % 512) n fun k => src.getD k 0) with
              | none => exact ⟨_, rfl⟩
              | some dev =>
                  dsimp only
                  split
                  · obtain ⟨⟨next, dev'⟩, hr⟩ := extend_some h dev cur
                    rw [hr]
                    cases next with
                    | none => exact ⟨_, rfl⟩
                    | some next => exact ih hdrop
                  · exact ih hdrop

theorem fatSyncDirEntry_some (hf : f.Fits) (dev : Device) : ∃ dev', fatSyncDirEntry fs dev f = some dev' := by
  rw [fatSyncDirEntry]
  cases dev.read f.dirSector with
  | none => exact ⟨_, rfl⟩
  | some sector =>
      dsimp only
      rw [access_le hf.offset]
      exact ⟨_, rfl⟩

theorem firstCluster_fits (hf : f.Fits) (h : firstCluster fs dev f = some (some (f', dev'))) : f'.Fits := by
  rw [firstCluster] at h
  split at h
  · cases h
    exact hf
  · obtain ⟨c, -, h⟩ := Option.bind_eq_some_iff.mp h
    split at h
    · cases h
    · obtain ⟨dev₁, -, h⟩ := Option.bind_eq_some_iff.mp h
      cases h
      exact ⟨hf.offset, hf.size, hf.pos⟩

theorem writeLoop_fits (hf : f.Fits) {src : List UInt8} {written n : Nat}
    (h : writeLoop fs fuel dev f cur src written = some (n, f', dev')) : f'.Fits := by
  induction fuel generalizing dev f cur src written with
  | zero => cases h
  | succ fuel ih =>
      rw [writeLoop] at h
      split at h
      · cases h
        exact hf
      · dsimp only at h
        split at h
        · cases h
          exact hf
        · obtain ⟨_, -, h⟩ := Option.bind_eq_some_iff.mp h
          split at h
          · cases h
            exact hf
          · have hpos := Nat.mod_lt (f.pos + min (fs.bps - f.pos % (fs.spc * fs.bps) % fs.bps) src.length) (Nat.two_pow_pos 32)
            have hf' : FatFile.Fits { f with
                pos := (f.pos + min (fs.bps - f.pos % (fs.spc * fs.bps) % fs.bps) src.length) % 2 ^ 32
                size := max f.size ((f.pos + min (fs.bps - f.pos % (fs.spc * fs.bps) % fs.bps) src.length) % 2 ^ 32) } :=
              ⟨hf.offset, Nat.max_lt.mpr ⟨hf.size, hpos⟩, hpos⟩
            split at h
            · obtain ⟨⟨next, dev₁⟩, -, h⟩ := Option.bind_eq_some_iff.mp h
              cases next with
              | none =>
                  cases h
                  exact hf'
              | some next => exact ih hf' h
            · exact ih hf' h

/-- **A write is safe.** -/
theorem fatWrite_returns (h : fs.bps = 512) (hf : f.Fits) (src : List UInt8) :
    ∃ fuel, (fatWrite fuel fs dev f src).isSome := by
  refine ⟨src.length + 1, ?_⟩
  rw [fatWrite]
  split
  · rfl
  · obtain ⟨r, hr⟩ := firstCluster_some h dev f
    rw [hr, Option.bind_eq_bind, Option.bind_some]
    cases r with
    | none => rfl
    | some fd =>
        obtain ⟨f₁, dev₁⟩ := fd
        obtain ⟨⟨cur, dev₂⟩, h₂⟩ := writeSkip_some h (f₁.pos / (fs.spc * fs.bps)) dev₁ f₁.cluster
        obtain ⟨⟨written, f₃, dev₃⟩, h₃⟩ := @writeLoop_some fs dev₂ f₁ (src.length + 1) cur h src 0 (Nat.lt_succ_self _)
        obtain ⟨dev₄, h₄⟩ := @fatSyncDirEntry_some fs f₃ (writeLoop_fits (firstCluster_fits hf hr) h₃) dev₃
        dsimp only
        rw [h₂, Option.bind_eq_bind, Option.bind_some, h₃, Option.bind_eq_bind, Option.bind_some, h₄]
        rfl

/-! ### The files of a volume -/

theorem Finds.fits (h : fs.bps = 512) {fatName : List UInt8} {dir : Dir} {found : Found}
    (hf : Finds fs dev fatName dir (some found)) : found.Fits := by
  cases dir with
  | root =>
      obtain ⟨r, hr, hin⟩ := searchSectors_some h dev fatName fs.rootSectors
      rw [Finds, fatSearchRootFixed, hr] at hf
      cases r with
      | ended => cases hf
      | more => cases hf
      | found _ =>
          cases hf
          exact hin _ rfl
  | chain cluster =>
      obtain ⟨n, hn, -⟩ := hf
      rw [searchAt] at hn
      split at hn
      · obtain ⟨r, hr, hin⟩ := searchSectors_some h dev fatName (fs.clusterSectors ((fs.next dev)^[n] cluster))
        rw [hr] at hn
        cases r with
        | ended => cases hn
        | more => cases hn
        | found _ =>
            cases hn
            exact hin _ rfl
      · cases hn

theorem findFreeEntry_offset (h : fs.bps = 512) {dir : Dir} {lba o : Nat}
    (hslot : findFreeEntry fuel fs dev dir = some (some (lba, o))) : o + dirEntryBytes ≤ sectorBytes := by
  cases dir with
  | root =>
      obtain ⟨r, hr, hin⟩ := freeInSectors_some h dev fs.rootSectors
      rw [findFreeEntry, hr] at hslot
      cases r with
      | ended => cases hslot
      | more => cases hslot
      | slot _ _ =>
          cases hslot
          exact hin _ _ rfl
  | chain cluster =>
      rw [findFreeEntry, fatFindFreeEntryInCluster_eq h] at hslot
      obtain ⟨n, -, hn, -⟩ := chase_eq_some.mp hslot
      rw [freeAt] at hn
      split at hn
      · obtain ⟨r, hr, hin⟩ := freeInSectors_some h dev (fs.clusterSectors ((fs.next dev)^[n] cluster))
        rw [hr] at hn
        cases r with
        | ended => cases hn
        | more => cases hn
        | slot _ _ =>
            cases hn
            exact hin _ _ rfl
      · cases hn

theorem openLoop_fits (h : fs.bps = 512) {n : Nat} {path : Str} {dir : Dir} (hn : path.length ≤ n)
    (hr : openLoop fuel fs dev n path dir = some (some f)) : f.Fits := by
  rw [openLoop_eq] at hr
  induction n generalizing path dir with
  | zero => cases hr
  | succ n ih =>
      rcases path_cases path with rfl | ⟨hne, rest, hnext, hlt⟩ | ⟨component, rest, hnext, hne, hlt⟩
      · cases hr
      · rw [pathLoop_empty hne hnext] at hr
        exact ih (by omega) hr
      · rw [pathLoop_into hnext hne] at hr
        obtain ⟨found, hfound, hr⟩ := Option.bind_eq_some_iff.mp hr
        cases found with
        | none => cases hr
        | some found =>
            rw [pathFound] at hr
            split at hr
            · next r htake =>
                -- the last component
                rw [openTake] at htake
                split at htake
                · split at htake
                  · cases htake
                  · cases htake
                    cases hr
                · cases htake
                  cases hr
                  have hfits := (searchDir_finds h hfound).fits h
                  exact ⟨hfits.offset, hfits.size, Nat.two_pow_pos 32⟩
            · exact ih (by omega) hr

theorem fatCreate_fits (h : fs.bps = 512) {name : Str} (hr : fatCreate fuel fs dev name = some (some f, dev')) : f.Fits := by
  rw [fatCreate] at hr
  split at hr
  · cases hr
  · obtain ⟨dir, -, hr⟩ := Option.bind_eq_some_iff.mp hr
    cases dir with
    | none => cases hr
    | some dir =>
        obtain ⟨slot, hslot, hr⟩ := Option.bind_eq_some_iff.mp hr
        cases slot with
        | none => cases hr
        | some slot =>
            obtain ⟨lba, o⟩ := slot
            dsimp only at hr
            split at hr
            · cases hr
            · split at hr
              · cases hr
              · cases hr
                exact ⟨findFreeEntry_offset h hslot, Nat.two_pow_pos 32, Nat.two_pow_pos 32⟩

theorem fatRead_fits (hf : f.Fits) {bytes : Nat} {buf : List UInt8} (hr : fatRead fuel fs dev f bytes = some (buf, f')) :
    f'.Fits := by
  rw [fatRead, ← wanted] at hr
  split at hr
  · cases hr
    exact hf
  · obtain ⟨cur, -, hr⟩ := Option.bind_eq_some_iff.mp hr
    cases cur with
    | none =>
        cases hr
        exact hf
    | some cur =>
        obtain ⟨buf, -, hr⟩ := Option.bind_eq_some_iff.mp hr
        cases hr
        exact ⟨hf.offset, hf.size, Nat.mod_lt _ (Nat.two_pow_pos 32)⟩

theorem fatWrite_fits (hf : f.Fits) {src : List UInt8} {n : Nat} (hr : fatWrite fuel fs dev f src = some (n, f', dev')) :
    f'.Fits := by
  rw [fatWrite] at hr
  split at hr
  · cases hr
    exact hf
  · obtain ⟨r, hfirst, hr⟩ := Option.bind_eq_some_iff.mp hr
    cases r with
    | none =>
        cases hr
        exact hf
    | some fd =>
        obtain ⟨⟨cur, dev₂⟩, -, hr⟩ := Option.bind_eq_some_iff.mp hr
        obtain ⟨⟨written, f₃, dev₃⟩, h₃, hr⟩ := Option.bind_eq_some_iff.mp hr
        obtain ⟨dev₄, -, hr⟩ := Option.bind_eq_some_iff.mp hr
        cases hr
        exact writeLoop_fits (firstCluster_fits hf hfirst) h₃

/-- **Files keep to the volume.** -/
theorem Held.fits (h : fs.bps = 512) (hf : Held fs f) : f.Fits := by
  induction hf with
  | opened hr => exact openLoop_fits h (Nat.le_refl _) hr
  | created hr => exact fatCreate_fits h hr
  | read _ hr ih => exact fatRead_fits ih hr
  | wrote _ hr ih => exact fatWrite_fits ih hr

/-! ### All calls -/

/-- `fat_mount` divides by no zero, and turns down what has not 512 bytes to a sector or no sectors to a cluster. -/
def MountSafe (boot : Device) : Prop :=
  (fatMount boot).isSome ∧
    ∀ sector, boot.read 0 = some sector → rd16 sector 11 ≠ 512 ∨ sector 13 = 0 → fatMount boot = some none

/-- The mount is safe, and so are the calls on what is mounted. -/
def Safe (boot dev : Device) (path name : Str) (f : FatFile) (bytes : Nat) (src : List UInt8) : Prop :=
  MountSafe boot ∧ ∀ fs, fatMount boot = some (some fs) →
    (∃ fuel, (fatOpen fuel fs dev path).isSome) ∧ (∃ fuel, (fatCreate fuel fs dev name).isSome) ∧
      (∃ fuel, (fatRead fuel fs dev f bytes).isSome) ∧ ∃ fuel, (fatWrite fuel fs dev f src).isSome

/-- The boot sector, where it can be read, has 512 bytes to a sector, and sectors to a cluster. -/
def BootFits (boot : Device) : Prop := ∀ sector, boot.read 0 = some sector → rd16 sector 11 = 512 ∧ sector 13 ≠ 0

theorem fatMount_fits {boot : Device} (hboot : BootFits boot) :
    fatMount boot = some none ∨ ∃ fs, fatMount boot = some (some fs) ∧ fs.bps = 512 ∧ 0 < fs.spc := by
  rw [fatMount]
  cases hread : boot.read 0 with
  | none => exact .inl rfl
  | some sector =>
      obtain ⟨hbps, hspc⟩ := hboot sector hread
      have hpos : (sector 13).toNat ≠ 0 := fun hzero => hspc (UInt8.toNat_inj.mp hzero)
      dsimp only
      rw [if_neg (by rw [hbps]; decide), if_neg hpos]
      exact .inr ⟨_, rfl, hbps, Nat.pos_of_ne_zero hpos⟩

/-- What has been read is never turned down. -/
theorem fatMount_ne_null {boot : Device} {sector : Bytes} (hread : boot.read 0 = some sector) : fatMount boot ≠ some none := by
  rw [fatMount, hread]
  dsimp only
  split
  · exact (Option.some_ne_none _).symm
  · split
    · exact (Option.some_ne_none _).symm
    · exact fun heq => Option.some_ne_none _ (Option.some.inj heq)

theorem mountSafe_iff (boot : Device) : MountSafe boot ↔ BootFits boot := by
  constructor
  · rintro ⟨-, hnull⟩ sector hread
    by_contra hno
    rw [not_and_or, not_not] at hno
    exact fatMount_ne_null hread (hnull sector hread hno)
  · intro hboot
    refine ⟨?_, fun sector hread hno => ?_⟩
    · rcases fatMount_fits hboot with hnull | ⟨fs, hfs, -⟩
      · rw [hnull]
        rfl
      · rw [hfs]
        rfl
    · obtain ⟨hbps, hspc⟩ := hboot sector hread
      exact absurd hno (not_or.mpr ⟨not_not.mpr hbps, hspc⟩)

/-- A volume of FAT32 with one sector to a cluster, and cluster 2 for the root directory. -/
def smallBoot : Bytes := fun i =>
  if i = 12 then 2 else if i = 13 ∨ i = 14 ∨ i = 16 ∨ i = 36 then 1 else if i = 32 then 100 else if i = 44 then 2 else 0

def smallFs : FatFs where
  type := .fat32
  fatStart := 1
  dataStart := 2
  rootDir := 2
  rootCluster := 2
  spc := 1
  bps := 512
  rootEntries := 0

/-- The volume with nothing else on it. -/
def blank : Device where
  data lba := if lba = 0 then smallBoot else fun _ => 0
  sectorCount := 100

/-- The volume with a root directory of deleted entries that is followed by itself. -/
def circle : Device where
  data lba := if lba = 0 then smallBoot else if lba = 1 then fun i => if i = 8 then 2 else 0 else fun _ => 0xE5
  sectorCount := 100

/-- What `fat_create` makes on the blank volume. -/
def newFile : FatFile := ⟨0, 0, 0, 2, 0⟩

theorem blank_mount : fatMount blank = some (some smallFs) := rfl

theorem newFile_held : Held smallFs newFile := @Held.created smallFs 1 blank _ [65] newFile rfl

/-- **When the calls are safe.** -/
theorem fat_safe_iff (boot dev : Device) (path name : Str) (f : FatFile) (bytes : Nat) (src : List UInt8)
    (hbytes : bytes < 2 ^ 32) (hf : ∀ fs, fatMount boot = some (some fs) → Held fs f) :
    Safe boot dev path name f bytes src ↔ BootFits boot ∧ ∀ fs, fatMount boot = some (some fs) →
      PathEnds fs dev (skipSlash path) fs.rootDirectory ∧ CreateEnds fs dev name ∧ ¬ ReadsOver fs dev f bytes := by
  rw [Safe, mountSafe_iff]
  refine and_congr_right fun hboot => forall_congr' fun fs => forall_congr' fun hfs => ?_
  obtain ⟨h, hspc⟩ : fs.bps = 512 ∧ 0 < fs.spc := by
    rcases fatMount_fits hboot with hnull | ⟨fs', hfs', hfits⟩
    · cases hfs.symm.trans hnull
    · cases hfs.symm.trans hfs'
      exact hfits
  have hfits := (hf fs hfs).fits h
  rw [fatOpen_returns_iff h, fatCreate_returns_iff h, fatRead_returns_iff h hspc hfits hbytes]
  exact and_congr_right fun _ => and_congr_right fun _ => and_iff_left (fatWrite_returns h hfits src)

/-- On the blank volume they are. -/
theorem blank_safe : Safe blank blank [65] [65] newFile 1 [1] := by
  refine (fat_safe_iff blank blank [65] [65] newFile 1 [1] (by decide) fun fs hfs => ?_).mpr ⟨?_, fun fs hfs => ?_⟩
  · cases blank_mount.symm.trans hfs
    exact newFile_held
  · exact (mountSafe_iff blank).mp ⟨rfl, fun sector hread hno => by cases hread; exact absurd hno (by decide)⟩
  · cases blank_mount.symm.trans hfs
    refine ⟨(fatOpen_returns_iff rfl [65]).mp ⟨2, rfl⟩, (fatCreate_returns_iff rfl [65]).mp ⟨1, rfl⟩, ?_⟩
    exact fun hover => absurd hover.2.1 (by decide)

/-- **A circle of clusters is searched for ever.** -/
theorem circle_not_safe :
    ¬ ∀ (boot dev : Device) (path name : Str) (f : FatFile) (bytes : Nat) (src : List UInt8), bytes < 2 ^ 32 →
      (∀ fs, fatMount boot = some (some fs) → Held fs f) → Safe boot dev path name f bytes src := by
  intro hall
  have hmount : fatMount circle = some (some smallFs) := rfl
  have hsafe := hall circle circle [65] [65] newFile 1 [1] (by decide) fun fs hfs => by
    cases hmount.symm.trans hfs
    exact newFile_held
  have hends := (fatOpen_returns_iff rfl [65]).mp (hsafe.2 smallFs hmount).1
  refine hends [65] (.chain 2) .refl (by decide) ⟨0, 1, Nat.one_pos, rfl, fun k hk => ?_⟩
  cases Nat.lt_one_iff.mp hk
  rfl

end Blackmount.Fat
