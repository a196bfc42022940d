import Blackmount.Block.Device

/-!
# Block — GUID partition tables

`gpt_register_partitions` on a device of any content: the size and the number of the entries come from the header, the
entries in one sector, the sectors of the table and the bytes to allocate from them.

* `GptHeader.inside_iff`: when the table stays within its buffer.
* `gptParse_device`: where nothing faults this is `gptRegisterPartitions`.
* `gpt_robust_iff`: the devices on which the partitions are registered as the table has them.
-/

namespace Blackmount.Block
open Blackmount.Lib

/-! ### The code -/

/-- A device behind its read callback: its bytes, and the requests that are not refused. -/
structure Media where
  content : Nat → UInt8
  reads : UInt64 → UInt32 → Bool

/-- `dev->read`, with the bytes that are then in the buffer. -/
def Media.read (m : Media) (sectorSize : Nat) (lba : UInt64) (count : UInt32) : Option Bytes :=
  if m.reads lba count then some fun k => m.content (lba.toNat * sectorSize + k) else none

/-- `gpt_header_t`, the fields that are read after the signature. -/
structure GptHeader where
  partitionEntryLba : UInt64
  partitionEntryCount : Nat
  partitionEntrySize : Nat
  deriving DecidableEq

/-- The header, if it passes the two tests. -/
def gptHeaderAt (sector : Bytes) : Option GptHeader :=
  if rd64 sector 0 ≠ gptSignature then none
  else if rd32 sector 84 < gptEntryBytes then none
  else some ⟨UInt64.ofNat (rd64 sector 72), rd32 sector 80, rd32 sector 84⟩

namespace GptHeader

def entriesPerSector (h : GptHeader) (sectorSize : Nat) : Nat := sectorSize / h.partitionEntrySize

def totalSectors (h : GptHeader) (sectorSize : Nat) : Nat :=
  (h.partitionEntryCount + h.entriesPerSector sectorSize - 1) % 2 ^ 32 / h.entriesPerSector sectorSize

/-- What `kmalloc` is asked for. -/
def tableBytes (h : GptHeader) (sectorSize : Nat) : Nat := h.totalSectors sectorSize * sectorSize % 2 ^ 32

/-- Where entry `i` is read in the table. -/
def offset (h : GptHeader) (i : Nat) : Nat := i * h.partitionEntrySize % 2 ^ 32

end GptHeader

/-- `gpt_register_partitions`, with the sizes of table for which there is memory, and what lies behind the table; `none`
where it divides by zero or goes through the null pointer. -/
def gptParse (heap : Nat → Bool) (m : Media) (s : BlockState) (d : Device) (beyond : Bytes) : Option (BlockState × Bool) :=
  let sectorSize := d.dev.sectorSize.toNat
  match m.read sectorSize 1 1 with
  | none => some (s, false)
  | some sector =>
      match gptHeaderAt sector with
      | none => some (s, false)
      | some h =>
          if h.entriesPerSector sectorSize = 0 then none
          else
            match m.read sectorSize h.partitionEntryLba (UInt32.ofNat (h.totalSectors sectorSize)) with
            | none => some (s, false)
            | some read =>
                if heap (h.tableBytes sectorSize) = false ∧ h.partitionEntryCount ≠ 0 then none
                else
                  let table : Bytes := fun k => if k < h.totalSectors sectorSize * sectorSize then read k else beyond k
                  let r := (List.range h.partitionEntryCount).foldl (gptEntry d table h.partitionEntrySize) (s, 0)
                  some (r.1, decide (0 < r.2))

/-! ### What is to be registered -/

/-- An entry with a type and a range of sectors. -/
def GptEntry.Named (e : GptEntry) : Prop := guidIsZero e.typeGuid = false ∧ e.startLba ≠ 0 ∧ e.startLba ≤ e.endLba

/-- The range ends on the device. -/
def GptEntry.Fits (e : GptEntry) (d : Device) : Prop := e.endLba < d.dev.sectorCount

instance decidableNamed (e : GptEntry) : Decidable e.Named := inferInstanceAs (Decidable (_ ∧ _))
instance decidableFits (e : GptEntry) (d : Device) : Decidable (e.Fits d) := inferInstanceAs (Decidable (_ < _))

/-- A device of the entry's own sectors. -/
def GptEntry.device (e : GptEntry) (d : Device) (i : Nat) : Device := d.part i e.startLba (e.endLba - e.startLba + 1)

/-- Entry `i` of the table on the device. -/
def Media.entry (m : Media) (h : GptHeader) (i : Nat) : GptEntry :=
  gptEntryAt (fun k => m.content (h.partitionEntryLba.toNat * 512 + k)) (i * h.partitionEntrySize)

/-- The entries that have a range of sectors. -/
def Media.named (m : Media) (h : GptHeader) : List Nat :=
  (List.range h.partitionEntryCount).filter fun i => (m.entry h i).Named

/-- The partitions of the device. -/
def Media.partitions (m : Media) (h : GptHeader) (d : Device) : List Device :=
  ((m.named h).filter fun i => (m.entry h i).Fits d).map fun i => (m.entry h i).device d i

/-- The header is there, and its table is read. -/
def Media.Finds (m : Media) (h : GptHeader) : Prop := ∃ sector, m.read 512 1 1 = some sector ∧ gptHeaderAt sector = some h

def Media.Loads (m : Media) (h : GptHeader) : Prop :=
  m.reads h.partitionEntryLba (UInt32.ofNat (h.totalSectors 512)) = true

instance decidableLoads (m : Media) (h : GptHeader) : Decidable (m.Loads h) := inferInstanceAs (Decidable (_ = true))

/-- The table as it is filled and as it is read lies in what was allocated. -/
def GptHeader.Inside (h : GptHeader) : Prop :=
  h.totalSectors 512 * 512 ≤ h.tableBytes 512 ∧
    ∀ i < h.partitionEntryCount, h.offset i + gptEntryBytes ≤ h.tableBytes 512

/-- **Robust**: nothing faults, the table stays within its buffer, and the partitions on the device are registered. -/
structure GptRobust (heap : Nat → Bool) (m : Media) (s : BlockState) (d : Device) (beyond : Bytes) : Prop where
  returns : (gptParse heap m s d beyond).isSome
  inside : ∀ h, m.Finds h → m.Loads h → h.Inside
  registers : ∀ h, m.Finds h → m.Loads h →
    ∃ ok, gptParse heap m s d beyond = some ({ s with devices := s.devices ++ m.partitions h d }, ok)
  refuses : (∀ h, m.Finds h → ¬ m.Loads h) → gptParse heap m s d beyond = some (s, false)

/-- Free slots of the table of devices. -/
def BlockState.room (s : BlockState) : Nat := maxBlockDevices - s.devices.length

/-- The entries with a range that there is room for end on the device, and no other does. -/
def Media.Suits (m : Media) (h : GptHeader) (s : BlockState) (d : Device) : Prop :=
  (∀ i ∈ (m.named h).take s.room, (m.entry h i).Fits d) ∧ ∀ i ∈ (m.named h).drop s.room, ¬ (m.entry h i).Fits d

/-- What has to be on the device: entries no larger than a sector, a table of less than 4 GiB for which there is memory, and
ranges that suit. -/
structure GptHeader.Fine (heap : Nat → Bool) (m : Media) (s : BlockState) (d : Device) (h : GptHeader) : Prop where
  size : h.partitionEntrySize ≤ 512
  sectors : m.Loads h → (h.partitionEntryCount + h.entriesPerSector 512 - 1) / h.entriesPerSector 512 < 2 ^ 23
  memory : m.Loads h → h.partitionEntryCount ≠ 0 → heap (h.tableBytes 512) = true
  ranges : m.Loads h → m.Suits h s d

/-! ### The size of the table -/

theorem gptHeaderAt_some {sector : Bytes} {h : GptHeader} (hh : gptHeaderAt sector = some h) :
    gptEntryBytes ≤ h.partitionEntrySize ∧ h.partitionEntryCount < 2 ^ 32 := by
  rw [gptHeaderAt] at hh
  split at hh
  · cases hh
  · split at hh
    · cases hh
    · next hsize =>
        cases hh
        exact ⟨Nat.le_of_not_lt hsize, rd32_lt _ _⟩

section Size

variable {h : GptHeader} (hlo : gptEntryBytes ≤ h.partitionEntrySize) (hhi : h.partitionEntrySize ≤ 512)

include hlo hhi

/-- The entries of one sector fill more than half of it. -/
theorem GptHeader.perSector_bounds :
    1 ≤ h.entriesPerSector 512 ∧ h.entriesPerSector 512 ≤ 4 ∧ h.entriesPerSector 512 * h.partitionEntrySize ≤ 512 := by
  have hpos : 0 < h.partitionEntrySize := Nat.lt_of_lt_of_le (by decide) hlo
  refine ⟨Nat.div_pos hhi hpos, ?_, Nat.div_mul_le_self _ _⟩
  have h4 : 512 / h.partitionEntrySize ≤ 512 / 128 := Nat.div_le_div_left hlo (by decide)
  exact h4

/-- The sectors, rounded up, hold all entries. -/
theorem GptHeader.entry_le {i : Nat} (hi : i < h.partitionEntryCount) :
    (i + 1) * h.partitionEntrySize ≤
      (h.partitionEntryCount + h.entriesPerSector 512 - 1) / h.entriesPerSector 512 * 512 := by
  obtain ⟨hp1, -, hpsize⟩ := GptHeader.perSector_bounds hlo hhi
  generalize h.entriesPerSector 512 = p at hp1 hpsize ⊢
  have hceil : h.partitionEntryCount ≤ (h.partitionEntryCount + p - 1) / p * p := by
    have := Nat.lt_div_mul_add (a := h.partitionEntryCount + p - 1) (b := p) hp1
    omega
  calc (i + 1) * h.partitionEntrySize
      ≤ (h.partitionEntryCount + p - 1) / p * p * h.partitionEntrySize := Nat.mul_le_mul_right _ (Nat.le_trans hi hceil)
    _ = (h.partitionEntryCount + p - 1) / p * (p * h.partitionEntrySize) := Nat.mul_assoc _ _ _
    _ ≤ (h.partitionEntryCount + p - 1) / p * 512 := Nat.mul_le_mul_left _ hpsize

/-- **When the table stays within its buffer**: just if it has fewer than 2²³ sectors. -/
theorem GptHeader.inside_iff (hcount : h.partitionEntryCount < 2 ^ 32) :
    h.Inside ↔ (h.partitionEntryCount + h.entriesPerSector 512 - 1) / h.entriesPerSector 512 < 2 ^ 23 := by
  obtain ⟨hp1, hp4, -⟩ := GptHeader.perSector_bounds hlo hhi
  have hentry : ∀ i < h.partitionEntryCount, _ := fun i hi => GptHeader.entry_le hlo hhi hi
  simp only [GptHeader.Inside, GptHeader.tableBytes, GptHeader.offset, GptHeader.totalSectors, gptEntryBytes] at hlo ⊢
  generalize h.entriesPerSector 512 = p at hp1 hp4 hentry ⊢
  generalize h.partitionEntryCount = count at hcount hentry ⊢
  generalize h.partitionEntrySize = size at hlo hhi hentry ⊢
  constructor
  · rintro ⟨hfill, hread⟩
    by_cases hwrap : count + p - 1 < 2 ^ 32
    · rw [Nat.mod_eq_of_lt hwrap] at hfill
      generalize (count + p - 1) / p = total at hfill ⊢
      omega
    · -- the sum wraps: a table of one sector at most, for billions of entries
      exfalso
      have htotal : (count + p - 1) % 2 ^ 32 / p ≤ 2 := (Nat.div_le_self _ _).trans (by omega)
      have h8 := hread 8 (by omega)
      generalize (count + p - 1) % 2 ^ 32 / p = total at htotal h8
      omega
  · intro htotal
    have hsum : count + p - 1 < 2 ^ 32 := by
      have := Nat.lt_div_mul_add (a := count + p - 1) (b := p) hp1
      have := Nat.mul_le_mul (Nat.le_of_lt htotal) hp4
      omega
    rw [Nat.mod_eq_of_lt hsum]
    generalize (count + p - 1) / p = total at htotal hentry ⊢
    have hbuf : total * 512 % 2 ^ 32 = total * 512 := Nat.mod_eq_of_lt (by omega)
    rw [hbuf]
    refine ⟨le_rfl, fun i hi => ?_⟩
    have hbytes := hentry i hi
    rw [Nat.add_mul, Nat.one_mul] at hbytes
    rw [Nat.mod_eq_of_lt (by omega)]
    omega

end Size

/-! ### The loop -/

theorem blockRegister_room (s : BlockState) (d : Device) (ds : List Device) :
    (blockRegister s d).1.devices ++ ds.take (blockRegister s d).1.room = s.devices ++ (d :: ds).take s.room := by
  simp only [blockRegister, BlockState.room]
  split
  · next hlt =>
      have hroom : maxBlockDevices - s.devices.length = maxBlockDevices - (s.devices ++ [d]).length + 1 := by
        rw [List.length_append, List.length_singleton]
        omega
      rw [hroom, List.take_succ_cons, List.append_assoc, List.singleton_append]
  · next hge =>
      have hroom : maxBlockDevices - s.devices.length = 0 := Nat.sub_eq_zero_of_le (Nat.le_of_not_lt hge)
      rw [hroom, List.take_zero, List.take_zero]

theorem blockRegister_mem (s : BlockState) (d : Device) : (blockRegister s d).1.mem = s.mem := by
  rw [blockRegister]
  split <;> rfl

/-- **The loop** registers the entries that have a range, as far as there is room. -/
theorem gptEntry_run {d : Device} {table : Bytes} {size : Nat} {entry : Nat → GptEntry} {is : List Nat}
    (hentry : ∀ i ∈ is, gptEntryAt table (i * size % 2 ^ 32) = entry i) (acc : BlockState × Nat) :
    (is.foldl (gptEntry d table size) acc).1 = ⟨acc.1.mem,
      acc.1.devices ++ ((is.filter fun i => (entry i).Named).map fun i => (entry i).device d i).take acc.1.room⟩ := by
  induction is generalizing acc with
  | nil => simp only [List.foldl_nil, List.filter_nil, List.map_nil, List.take_nil, List.append_nil]
  | cons i is ih =>
      rw [List.foldl_cons, ih fun j hj => hentry j (List.mem_cons_of_mem _ hj)]
      have hi := hentry i List.mem_cons_self
      by_cases hnamed : (entry i).Named
      · obtain ⟨hguid, hstart, hend⟩ := hnamed
        have hstep : (gptEntry d table size acc i).1 = (blockRegister acc.1 ((entry i).device d i)).1 := by
          simp only [gptEntry, hi]
          rw [if_neg (by rw [hguid]; exact Bool.false_ne_true),
            if_neg (not_or.mpr ⟨hstart, UInt64.not_lt.mpr hend⟩)]
          rfl
        have hfilter : (i :: is).filter (fun i => (entry i).Named) = i :: is.filter fun i => (entry i).Named :=
          List.filter_cons_of_pos (decide_eq_true ⟨hguid, hstart, hend⟩)
        rw [hfilter, List.map_cons, hstep, blockRegister_room, blockRegister_mem]
      · have hstep : gptEntry d table size acc i = acc := by
          simp only [gptEntry, hi]
          split
          · rfl
          · next hguid =>
              split
              · rfl
              · next hrange =>
                  rw [not_or, UInt64.not_lt] at hrange
                  exact absurd ⟨Bool.eq_false_iff.mpr hguid, hrange⟩ hnamed
        have hfilter : (i :: is).filter (fun i => (entry i).Named) = is.filter fun i => (entry i).Named :=
          List.filter_cons_of_neg fun h => hnamed (of_decide_eq_true h)
        rw [hfilter, hstep]

theorem gptEntryAt_congr {t t' : Bytes} {o o' : Nat} (h : ∀ k < gptEntryBytes, t (o + k) = t' (o' + k)) :
    gptEntryAt t o = gptEntryAt t' o' := by
  have hb : ∀ k < 128, t (o + k) = t' (o' + k) := h
  simp only [gptEntryAt, GptEntry.mk.injEq]
  refine ⟨List.map_congr_left fun k hk => hb k (by rw [List.mem_range] at hk; omega), ?_, ?_⟩
  · exact congrArg UInt64.ofNat (rd64_moved fun j hj => by rw [Nat.add_assoc, Nat.add_assoc]; exact hb _ (by omega))
  · exact congrArg UInt64.ofNat (rd64_moved fun j hj => by rw [Nat.add_assoc, Nat.add_assoc]; exact hb _ (by omega))

/-- What a full table keeps is what it should hold. -/
theorem take_eq_filter {α β : Type} {f : α → β} {p : α → Prop} [DecidablePred p] {q : β → Prop} (hq : ∀ x, q (f x) ↔ p x)
    (xs : List α) (n : Nat) :
    (xs.map f).take n = (xs.filter fun x => p x).map f ↔ (∀ x ∈ xs.take n, p x) ∧ ∀ x ∈ xs.drop n, ¬ p x := by
  have hsplit : (xs.filter fun x => p x) = ((xs.take n).filter fun x => p x) ++ (xs.drop n).filter fun x => p x := by
    rw [← List.filter_append, List.take_append_drop]
  rw [← List.map_take]
  constructor
  · intro h
    have hall : ∀ x ∈ xs.take n, p x := fun x hx => by
      have hmem : f x ∈ (xs.filter fun x => p x).map f := h ▸ List.mem_map_of_mem hx
      obtain ⟨y, hy, hyx⟩ := List.mem_map.mp hmem
      exact (hq x).mp (hyx ▸ (hq y).mpr (of_decide_eq_true (List.mem_filter.mp hy).2))
    refine ⟨hall, fun x hx hpx => ?_⟩
    rw [hsplit, List.filter_eq_self.mpr fun x hx => decide_eq_true (hall x hx), List.map_append,
      List.self_eq_append_right, List.map_eq_nil_iff, List.filter_eq_nil_iff] at h
    exact h x hx (decide_eq_true hpx)
  · rintro ⟨hall, hnone⟩
    rw [hsplit, List.filter_eq_self.mpr fun x hx => decide_eq_true (hall x hx),
      List.filter_eq_nil_iff.mpr fun x hx => by simpa using hnone x hx, List.append_nil]

/-! ### When it is robust -/

section Parse

variable {heap : Nat → Bool} {m : Media} {s : BlockState} {d : Device} {beyond : Bytes} {h : GptHeader}
  (hd : d.dev.sectorSize = 512)

include hd

theorem gptParse_lost (hlost : ∀ h, ¬ m.Finds h) : gptParse heap m s d beyond = some (s, false) := by
  have hsize : d.dev.sectorSize.toNat = 512 := by rw [hd]; rfl
  rw [gptParse, hsize]
  dsimp only
  split
  · rfl
  · next sector hread =>
      split
      · rfl
      · next h hh => exact absurd ⟨sector, hread, hh⟩ (hlost h)

/-- With a header, the table decides. -/
theorem gptParse_found (hfinds : m.Finds h) :
    gptParse heap m s d beyond =
      if h.entriesPerSector 512 = 0 then none
      else if m.Loads h then
        if heap (h.tableBytes 512) = false ∧ h.partitionEntryCount ≠ 0 then none
        else
          let table : Bytes := fun k =>
            if k < h.totalSectors 512 * 512 then m.content (h.partitionEntryLba.toNat * 512 + k) else beyond k
          let r := (List.range h.partitionEntryCount).foldl (gptEntry d table h.partitionEntrySize) (s, 0)
          some (r.1, decide (0 < r.2))
      else some (s, false) := by
  have hsize : d.dev.sectorSize.toNat = 512 := by rw [hd]; rfl
  obtain ⟨sector, hread, hh⟩ := hfinds
  rw [gptParse, hsize]
  simp only [hread, hh]
  by_cases hloads : m.reads h.partitionEntryLba (UInt32.ofNat (h.totalSectors 512)) = true
  · have hl : m.Loads h := hloads
    simp only [Media.read, hloads, if_true, if_pos hl]
  · have hl : ¬ m.Loads h := hloads
    simp only [Media.read, if_neg hloads, if_neg hl]

/-- A table within its buffer is read as it is on the device. -/
theorem gptParse_inside (hfinds : m.Finds h) (hsize : h.partitionEntrySize ≤ 512) (hloads : m.Loads h) (hinside : h.Inside)
    (hmemory : h.partitionEntryCount ≠ 0 → heap (h.tableBytes 512) = true) :
    ∃ ok, gptParse heap m s d beyond =
      some (⟨s.mem, s.devices ++ ((m.named h).map fun i => (m.entry h i).device d i).take s.room⟩, ok) := by
  obtain ⟨hlo, hcount⟩ := gptHeaderAt_some hfinds.choose_spec.2
  obtain ⟨hp1, -, -⟩ := GptHeader.perSector_bounds hlo hsize
  have hmem : ¬ (heap (h.tableBytes 512) = false ∧ h.partitionEntryCount ≠ 0) := fun hno => by
    have := hmemory hno.2
    rw [hno.1] at this
    cases this
  rw [gptParse_found hd hfinds, if_neg (Nat.pos_iff_ne_zero.mp hp1), if_pos hloads, if_neg hmem]
  refine ⟨_, congrArg some (Prod.ext (@gptEntry_run d _ _ (m.entry h) _ (fun i hi => ?_) (s, 0)) rfl)⟩
  have hread := hinside.2 i (List.mem_range.mp hi)
  have hbuffer : h.tableBytes 512 ≤ h.totalSectors 512 * 512 := Nat.mod_le _ _
  have hwhole : i * h.partitionEntrySize % 2 ^ 32 = i * h.partitionEntrySize := by
    have hfew := (GptHeader.inside_iff hlo hsize hcount).mp hinside
    have hbytes := GptHeader.entry_le hlo hsize (List.mem_range.mp hi)
    generalize (h.partitionEntryCount + h.entriesPerSector 512 - 1) / h.entriesPerSector 512 = total at hfew hbytes
    rw [Nat.add_mul] at hbytes
    exact Nat.mod_eq_of_lt (by omega)
  rw [hwhole]
  refine gptEntryAt_congr fun k hk => if_pos ?_
  rw [GptHeader.offset, hwhole] at hread
  omega

end Parse

/-- The range of an entry can be read off its device. -/
theorem GptEntry.device_end (e : GptEntry) (d : Device) (i : Nat) :
    (e.device d i).dev.lbaOffset - d.dev.lbaOffset + (e.device d i).dev.sectorCount - 1 = e.endLba := by
  simp only [GptEntry.device, Device.part, partition]
  grind

theorem Media.finds_unique {m : Media} {h h' : GptHeader} (hh : m.Finds h) (hh' : m.Finds h') : h' = h := by
  obtain ⟨sector, hread, hhead⟩ := hh
  obtain ⟨sector', hread', hhead'⟩ := hh'
  cases hread.symm.trans hread'
  exact Option.some.inj (hhead'.symm.trans hhead)

/-- **GUID partition tables are read well**: on the devices whose header, if there is one, is fine, and on no others. -/
theorem gpt_robust_iff (heap : Nat → Bool) (m : Media) (s : BlockState) (d : Device) (beyond : Bytes)
    (hd : d.dev.sectorSize = 512) :
    GptRobust heap m s d beyond ↔ ∀ h, m.Finds h → h.Fine heap m s d := by
  by_cases hfound : ∃ h, m.Finds h
  · obtain ⟨h, hfinds⟩ := hfound
    obtain ⟨hlo, hcount⟩ := gptHeaderAt_some hfinds.choose_spec.2
    have hsuits : ((m.named h).map fun i => (m.entry h i).device d i).take s.room = m.partitions h d ↔ m.Suits h s d :=
      take_eq_filter (q := fun e => e.dev.lbaOffset - d.dev.lbaOffset + e.dev.sectorCount - 1 < d.dev.sectorCount)
        (fun i => by rw [GptEntry.device_end]; rfl) (m.named h) s.room
    constructor
    · intro hr h' hfinds'
      cases m.finds_unique hfinds hfinds'
      have hreturns := hr.returns
      rw [gptParse_found hd hfinds] at hreturns
      have hsize : h.partitionEntrySize ≤ 512 := by
        by_contra hbig
        have hzero : h.entriesPerSector 512 = 0 := Nat.div_eq_of_lt (Nat.lt_of_not_le hbig)
        rw [if_pos hzero] at hreturns
        cases hreturns
      obtain ⟨hp1, -, -⟩ := GptHeader.perSector_bounds hlo hsize
      rw [if_neg (Nat.pos_iff_ne_zero.mp hp1)] at hreturns
      have hmemory : m.Loads h → h.partitionEntryCount ≠ 0 → heap (h.tableBytes 512) = true := by
        intro hloads hne
        by_contra hnone
        rw [if_pos hloads, if_pos ⟨Bool.eq_false_iff.mpr hnone, hne⟩] at hreturns
        cases hreturns
      refine ⟨hsize, fun hloads => (GptHeader.inside_iff hlo hsize hcount).mp (hr.inside h hfinds hloads), hmemory,
        fun hloads => ?_⟩
      obtain ⟨ok, hparse⟩ := hr.registers h hfinds hloads
      obtain ⟨ok', hrun⟩ := @gptParse_inside heap m s d beyond h hd hfinds hsize hloads (hr.inside h hfinds hloads) (hmemory hloads)
      have hdevices := congrArg (fun r => r.1.devices) (Option.some.inj (hrun.symm.trans hparse))
      exact hsuits.mp (List.append_cancel_left hdevices)
    · intro hfine
      have hf := hfine h hfinds
      obtain ⟨hp1, -, -⟩ := GptHeader.perSector_bounds hlo hf.size
      have hrun : m.Loads h → ∃ ok, gptParse heap m s d beyond = some (⟨s.mem, s.devices ++ m.partitions h d⟩, ok) := by
        intro hloads
        rw [← hsuits.mpr (hf.ranges hloads)]
        exact gptParse_inside hd hfinds hf.size hloads ((GptHeader.inside_iff hlo hf.size hcount).mpr (hf.sectors hloads))
          (hf.memory hloads)
      have hrefused : ¬ m.Loads h → gptParse heap m s d beyond = some (s, false) := fun hloads => by
        rw [gptParse_found hd hfinds, if_neg (Nat.pos_iff_ne_zero.mp hp1), if_neg hloads]
      refine ⟨?_, fun h' hfinds' hloads => ?_, fun h' hfinds' hloads => ?_, fun hno => hrefused (hno h hfinds)⟩
      · by_cases hloads : m.Loads h
        · obtain ⟨ok, hparse⟩ := hrun hloads
          rw [hparse]
          rfl
        · rw [hrefused hloads]
          rfl
      · cases m.finds_unique hfinds hfinds'
        exact (GptHeader.inside_iff hlo hf.size hcount).mpr (hf.sectors hloads)
      · cases m.finds_unique hfinds hfinds'
        exact hrun hloads
  · have hlost : ∀ h, ¬ m.Finds h := not_exists.mp hfound
    have hparse := @gptParse_lost heap m s d beyond hd hlost
    exact ⟨fun _ h hh => absurd hh (hlost h), fun _ =>
      ⟨by rw [hparse]; rfl, fun h hh => absurd hh (hlost h), fun h hh => absurd hh (hlost h), fun _ => hparse⟩⟩

/-! ### Disks in memory -/

/-- A RAM disk, an image or a part of one, in memory `mem`. -/
def Device.media (d : Device) (mem : Memory) : Media where
  content k := mem (d.dev.driverData.data + d.dev.lbaOffset * 512 + UInt64.ofNat k)
  reads lba count := (span d.dev lba count).isSome

theorem Device.fetch_media {d : Device} (hd : d.dev.sectorSize = 512) (mem : Memory) (lba : UInt64) (count : UInt32) :
    d.dev.fetch mem lba count = (d.media mem).read 512 lba count := by
  have hword : (d.dev.lbaOffset + lba) * d.dev.sectorSize.toUInt64 = d.dev.lbaOffset * 512 + lba * 512 := by
    have hword : d.dev.sectorSize.toUInt64 = 512 := by rw [hd]; rfl
    rw [hword]
    grind
  have hreads : (d.media mem).reads lba count = (span d.dev lba count).isSome := rfl
  cases hspan : span d.dev lba count with
  | none =>
      rw [BlockDevice.fetch, hspan, Media.read, hreads, hspan]
      rfl
  | some r =>
      have hr : r.1 = d.dev.lbaOffset * 512 + lba * 512 := by
        rw [span] at hspan
        split at hspan
        · cases hspan
        · rw [← hword, ← Option.some.inj hspan]
      rw [BlockDevice.fetch, hspan, Media.read, hreads, hspan, Option.isSome_some, if_pos rfl, Option.map_some, hr]
      refine congrArg some (funext fun k => congrArg mem ?_)
      rw [UInt64.ofNat_add, UInt64.ofNat_mul, UInt64.ofNat_toNat]
      have hlit : UInt64.ofNat 512 = 512 := rfl
      rw [hlit]
      grind

/-- **Where nothing faults** this is what is done with such a disk. -/
theorem gptParse_device {heap : Nat → Bool} {s : BlockState} {d : Device} {beyond : Bytes} (hd : d.dev.sectorSize = 512)
    {r : BlockState × Bool} (h : gptParse heap (d.media s.mem) s d beyond = some r) :
    gptRegisterPartitions s d beyond = r := by
  have hsize : d.dev.sectorSize.toNat = 512 := by rw [hd]; rfl
  rw [gptParse, hsize] at h
  rw [gptRegisterPartitions, hsize]
  simp only [Device.fetch_media hd]
  cases hread : (d.media s.mem).read 512 1 1 with
  | none =>
      rw [hread] at h
      exact Option.some.inj h
  | some sector =>
      rw [hread] at h
      dsimp only at h ⊢
      rw [gptHeaderAt] at h
      split at h
      · next hnone =>
          cases h
          split
          · rfl
          · next hsig =>
              rw [if_neg hsig] at hnone
              split at hnone
              · next hsmall => rw [if_pos hsmall]
              · cases hnone
      · next head hsome =>
          split at hsome
          · cases hsome
          · next hsig =>
              split at hsome
              · cases hsome
              · next hsmall =>
                  cases hsome
                  rw [if_neg hsig, if_neg hsmall]
                  generalize UInt64.ofNat (rd64 sector 72) = entryLba at h ⊢
                  generalize rd32 sector 80 = entryCount at h ⊢
                  generalize rd32 sector 84 = entrySize at h ⊢
                  unfold GptHeader.totalSectors GptHeader.entriesPerSector at h
                  dsimp only at h
                  split at h
                  · cases h
                  · next hpos =>
                      rw [if_neg hpos]
                      split at h
                      · next hno =>
                          rw [hno]
                          exact Option.some.inj h
                      · next read hyes =>
                          rw [hyes]
                          split at h
                          · cases h
                          · exact Option.some.inj h

/-- A disk of eight sectors: the header is sector 1, the table sector 2, its one entry the sectors 3 to 5. -/
def gptDisk (entrySize : UInt8) : Media where
  content k :=
    if 512 ≤ k ∧ k < 520 then byteOf (gptSignature / 256 ^ (k - 512))
    else if k = 584 then 2
    else if k = 592 then 1
    else if k = 596 then 128
    else if k = 597 then entrySize
    else if k = 1024 then 1
    else if k = 1056 then 3
    else if k = 1064 then 5
    else 0
  reads lba count := decide (lba.toNat + count.toNat ≤ 8)

def gptDevice : Device := .whole ⟨[114], 8, 512, 0, ⟨0, 4096⟩, .ramdisk⟩

theorem gptDisk_header {high : UInt8} {h : GptHeader} (hfinds : (gptDisk high).Finds h) :
    some h = gptHeaderAt fun k => (gptDisk high).content ((1 : UInt64).toNat * 512 + k) := by
  obtain ⟨sector, hread, hh⟩ := hfinds
  rw [← hh, ← Option.some.inj hread]

/-- Entries of 128 bytes. -/
theorem gpt_robust_small : GptRobust (fun _ => true) (gptDisk 0) { mem := fun _ => 0 } gptDevice (fun _ => 0) := by
  refine (gpt_robust_iff (fun _ => true) (gptDisk 0) { mem := fun _ => 0 } gptDevice (fun _ => 0) rfl).mpr fun h hfinds => ?_
  have hhead : h = ⟨2, 1, 128⟩ := Option.some.inj ((gptDisk_header hfinds).trans (by decide +kernel))
  subst hhead
  exact ⟨by decide, fun _ => by decide, fun _ _ => rfl, fun _ => by unfold Media.Suits; decide +kernel⟩

/-- Entries of 1152 bytes: none fits a sector, and the number of sectors is divided by zero. -/
theorem large_entries_fault :
    gptParse (fun _ => true) (gptDisk 4) { mem := fun _ => 0 } gptDevice (fun _ => 0) = none ∧
      ¬ GptRobust (fun _ => true) (gptDisk 4) { mem := fun _ => 0 } gptDevice (fun _ => 0) := by
  have hnone : gptParse (fun _ => true) (gptDisk 4) { mem := fun _ => 0 } gptDevice (fun _ => 0) = none := by
    have hfinds : (gptDisk 4).Finds ⟨2, 1, 1152⟩ := ⟨_, rfl, by decide +kernel⟩
    rw [gptParse_found rfl hfinds]
    rfl
  refine ⟨hnone, fun h => ?_⟩
  have hreturns := h.returns
  rw [hnone] at hreturns
  cases hreturns

end Blackmount.Block
