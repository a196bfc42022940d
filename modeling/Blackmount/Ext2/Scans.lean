import Blackmount.Ext2.System
import Blackmount.Ext2.Total
import Blackmount.Lib.Cursor

/-!
# Ext2 — directory scans

The four loops over the records of a directory have no state but an offset (and `ext2_remove_dir_entry` the record
before).  What each does at an offset is a function of the bytes there (`lookupVisit`, `addVisit`, `readVisit`): it
ends, goes on by `rec_len`, or leaves the block.  So they end, and stay in their blocks, exactly when these lead
from offset 0 to an end (`Proceeds`).
-/

namespace Blackmount.Ext2
open Blackmount.Lib

/-! ### What a scan does at an offset -/

/-- The bytes from `off` on are those of the name. -/
def SameBytes (d : Bytes) (off : Nat) (name : Name) : Prop := ∀ j, j < name.length → d (off + j) = name.bytes j

/-- `memcmp` stays in the block: so do the bytes up to the first difference. -/
def MemcmpInside (bs : Nat) (d : Bytes) (off : Nat) (name : Name) : Prop :=
  ∀ j, j < name.length → (∀ i, i < j → d (off + i) = name.bytes i) → off + j < bs

/-- The record has the name. -/
def Named (d : Bytes) (off : Nat) (name : Name) : Prop :=
  rd32 d off ≠ 0 ∧ (d (off + 6)).toNat = name.length ∧ SameBytes d (off + 8) name

/-- What `ext2_lookup` reads of a record is in the block: `rec_len`, the length of the name of a live record, and
its name as far as `memcmp` goes. -/
def LookupInside (bs : Nat) (d : Bytes) (off : Nat) (name : Name) : Prop :=
  off + 6 ≤ bs ∧ (rd32 d off ≠ 0 → off + 7 ≤ bs ∧ ((d (off + 6)).toNat = name.length → MemcmpInside bs d (off + 8) name))

/-- The bytes of a record that its name needs. -/
def realLen (d : Bytes) (off : Nat) : Nat := alignUp4 (8 + (d (off + 6)).toNat)

/-- `ext2_add_dir_entry` takes the rest of this record. -/
def Roomy (d : Bytes) (off : Nat) (name : Name) : Prop :=
  alignUp4 (8 + name.length) ≤ sub32 (rd16 d (off + 4)) (realLen d off)

/-- What `ext2_add_dir_entry` reads of a record, and writes behind it, is in the block. -/
def AddInside (bs : Nat) (d : Bytes) (off : Nat) (name : Name) : Prop :=
  off + 7 ≤ bs ∧ (Roomy d off name → off + realLen d off + 8 + name.length ≤ bs)

/-- What `ext2_readdir` reads of a record is in the block. -/
def ReadInside (bs : Nat) (d : Bytes) (off : Nat) : Prop :=
  off + 6 ≤ bs ∧ (rd32 d off ≠ 0 → off + 8 + (d (off + 6)).toNat ≤ bs)

instance (d : Bytes) (off : Nat) (name : Name) : Decidable (SameBytes d off name) := Nat.decidableBallLT _ _
instance (bs : Nat) (d : Bytes) (off : Nat) (name : Name) : Decidable (MemcmpInside bs d off name) := Nat.decidableBallLT _ _
instance (d : Bytes) (off : Nat) (name : Name) : Decidable (Named d off name) := instDecidableAnd
instance (bs : Nat) (d : Bytes) (off : Nat) (name : Name) : Decidable (LookupInside bs d off name) := instDecidableAnd
instance (d : Bytes) (off : Nat) (name : Name) : Decidable (Roomy d off name) := Nat.decLe _ _
instance (bs : Nat) (d : Bytes) (off : Nat) (name : Name) : Decidable (AddInside bs d off name) := instDecidableAnd
instance (bs : Nat) (d : Bytes) (off : Nat) : Decidable (ReadInside bs d off) := instDecidableAnd

/-- A scan of a directory does `look` at each record, and ends at its size and at a block it does not have. -/
def Fs.scan (fs : Fs) (dir : Inode) (look : Nat → Bytes → Nat → Visit) (o : Nat) : Visit :=
  if o < dir.size then
    let b := fs.fileBlock dir (o / fs.blockSize)
    if b = 0 then .ends else look o (fs.disk b) (o % fs.blockSize)
  else .ends

/-- `ext2_lookup` and `ext2_remove_dir_entry` at a record. -/
def lookupAt (bs : Nat) (name : Name) (o : Nat) (d : Bytes) (off : Nat) : Visit :=
  if LookupInside bs d off name then
    if Named d off name then .ends else .next (u32 (o + rd16 d (off + 4)))
  else .fails

/-- `ext2_add_dir_entry` at a record. -/
def addAt (bs : Nat) (name : Name) (o : Nat) (d : Bytes) (off : Nat) : Visit :=
  if AddInside bs d off name then
    if Roomy d off name then .ends else .next (u32 (o + rd16 d (off + 4)))
  else .fails

/-- Calls of `ext2_readdir`, one after the other, at a record. -/
def readAt (bs o : Nat) (d : Bytes) (off : Nat) : Visit :=
  if ReadInside bs d off then .next (o + rd16 d (off + 4)) else .fails

theorem Fs.scan_end (fs : Fs) (dir : Inode) (look : Nat → Bytes → Nat → Visit) {o : Nat} (h : dir.size ≤ o) :
    fs.scan dir look o = .ends := if_neg (by omega)

/-! ### Rounds

One round of each loop does what its visit says, unless a block is refused. -/

/-- The file systems differ in the faults to come alone. -/
def Alike (fs fs' : Fs) : Prop := ∃ faults, fs' = { fs with faults := faults }

theorem Alike.refl (fs : Fs) : Alike fs fs := ⟨fs.faults, rfl⟩

theorem Alike.quiet {fs fs₁ fs₂ : Fs} (h : Alike fs fs₁) (hq : Quiet fs₁ fs₂) : Alike fs fs₂ := by
  obtain ⟨f, rfl⟩ := h
  obtain ⟨c, rfl⟩ := hq
  exact ⟨_, rfl⟩

variable {fs fs' : Fs}

theorem Alike.fileBlock (h : Alike fs fs') (dir : Inode) (index : Nat) :
    fs'.fileBlock dir index = fs.fileBlock dir index := by
  obtain ⟨f, rfl⟩ := h
  simp only [Fs.fileBlock]
  cases blockPath (fs.blockSize / 4) index with
  | none => rfl
  | some p =>
      obtain ⟨slot, path⟩ := p
      dsimp only
      refine Fs.follow_congr ?_ path (dir.block slot)
      rfl

theorem Alike.scan (h : Alike fs fs') (dir : Inode) (look : Nat → Bytes → Nat → Visit) :
    fs'.scan dir look = fs.scan dir look := by
  funext o
  simp only [Fs.scan, h.fileBlock]
  obtain ⟨f, rfl⟩ := h
  rfl

theorem Alike.regular (h : Alike fs fs') (hr : Regular fs) : Regular fs' := by
  obtain ⟨f, rfl⟩ := h
  exact ⟨hr.mapped, hr.blocksPerGroup, hr.inodesPerGroup, hr.table, hr.blockBits, hr.inodeBits, hr.group, hr.record⟩

variable {dir : Inode}

theorem scanBlock_reads (hm : Mapped fs.blockSize) {o : Nat} (ho : o < dir.size) :
    ∃ b fs', scanBlock dir o fs = some (b, fs') ∧ Quiet fs fs' ∧
      (b = fs.fileBlock dir (o / fs.blockSize) ∨ b = 0 ∧ ¬ fs.Reliable) := by
  have hbs : fs.blockSize ≠ 0 := by
    have := hm.large
    omega
  have hsize : dir.size < 2 ^ 32 := rd32_lt _ _
  have hindex : o / fs.blockSize < 2 ^ 32 := Nat.lt_of_le_of_lt (Nat.div_le_self _ _) (by omega)
  obtain ⟨b, fs', hrun, hq, hb⟩ := getBlockNum_reads hm dir hindex
  refine ⟨b, fs', ?_, hq, hb⟩
  rw [scanBlock, get_bind, if_neg hbs, bind_run, hrun]
  rfl

/-- The part of a round that all loops share, up to the record: the loop ends, as the scan does or because a block
is refused; or it is at the record. -/
theorem scan_round {α : Type} (hm : Mapped fs.blockSize) (look : Nat → Bytes → Nat → Visit) {o : Nat} {e₀ e₁ e₂ : α}
    {m : Ext2M α} {body : Option Nat → Ext2M α}
    (hrun : m = if o < dir.size then do
        let b ← scanBlock dir o
        if b = 0 then return e₀ else getBlock b >>= body
      else return e₂) (hbody : body none = pure e₁) :
    (∃ e fs', (e = e₀ ∨ e = e₁ ∨ e = e₂) ∧ (¬ fs.Reliable ∨ fs.scan dir look o = .ends) ∧ Quiet fs fs' ∧ m fs = some (e, fs')) ∨
    ∃ fs', Quiet fs fs' ∧ fs.scan dir look o =
        look o (fs.disk (fs.fileBlock dir (o / fs.blockSize))) (o % fs.blockSize) ∧
      m fs = body (some (fs.fileBlock dir (o / fs.blockSize))) fs' := by
  subst hrun
  by_cases ho : o < dir.size
  swap
  · rw [if_neg ho]
    exact .inl ⟨e₂, fs, .inr (.inr rfl), .inr (fs.scan_end dir look (by omega)), .refl fs, rfl⟩
  obtain ⟨b, fs₁, hscan, hq, hb⟩ := scanBlock_reads hm ho
  rw [if_pos ho, bind_run, hscan, Option.bind_some]
  dsimp only
  by_cases h0 : b = 0
  · rw [if_pos h0]
    refine .inl ⟨e₀, fs₁, .inl rfl, ?_, hq, rfl⟩
    rcases hb with hb | hb
    · refine .inr ?_
      rw [Fs.scan, if_pos ho, ← hb]
      exact if_pos h0
    · exact .inl hb.2
  obtain rfl := hb.resolve_right fun hb => h0 hb.1
  rw [if_neg h0, bind_run]
  rcases getBlock_cases fs₁ (fs.fileBlock dir (o / fs.blockSize)) with hget | ⟨hr, hget⟩
  · rw [hget, Option.bind_some]
    refine .inr ⟨fs₁.asked, hq.trans (quiet_asked fs₁), ?_, rfl⟩
    rw [Fs.scan, if_pos ho]
    exact if_neg h0
  · rw [hget, Option.bind_some, hbody]
    exact .inl ⟨e₁, fs₁.asked, .inr (.inl rfl), .inl fun hrel => hr ((Steady.of_quiet hq).reliable hrel),
      hq.trans (quiet_asked fs₁), rfl⟩

/-! ### The names of records -/

theorem sameBytes_cons {d : Bytes} {off : Nat} {c : UInt8} {rest : Name} :
    SameBytes d off (c :: rest) ↔ d off = c ∧ SameBytes d (off + 1) rest := by
  constructor
  · intro h
    refine ⟨h 0 (by simp), fun j hj => ?_⟩
    rw [Nat.add_assoc, Nat.add_comm 1]
    exact h (j + 1) (by simpa using hj)
  · rintro ⟨hc, h⟩ j hj
    cases j with
    | zero => exact hc
    | succ j =>
        have := h j (by simpa using hj)
        rwa [Nat.add_assoc, Nat.add_comm 1] at this

theorem memcmpInside_cons {bs : Nat} {d : Bytes} {off : Nat} {c : UInt8} {rest : Name} :
    MemcmpInside bs d off (c :: rest) ↔ off < bs ∧ (d off = c → MemcmpInside bs d (off + 1) rest) := by
  constructor
  · intro h
    refine ⟨h 0 (by simp) fun i hi => absurd hi (Nat.not_lt_zero i), fun hc j hj hsame => ?_⟩
    rw [Nat.add_assoc, Nat.add_comm 1]
    refine h (j + 1) (by simpa using hj) fun i hi => ?_
    cases i with
    | zero => exact hc
    | succ i =>
        have := hsame i (by omega)
        rwa [Nat.add_assoc, Nat.add_comm 1] at this
  · rintro ⟨hlt, h⟩ j hj hsame
    cases j with
    | zero => exact hlt
    | succ j =>
        have := h (hsame 0 (Nat.succ_pos j)) j (by simpa using hj) fun i hi => by
          have := hsame (i + 1) (by omega)
          rwa [Nat.add_assoc, Nat.add_comm 1]
        rwa [Nat.add_assoc, Nat.add_comm 1] at this

theorem memcmpName_run (b off : Nat) (name : Name) :
    memcmpName b off name fs =
      if MemcmpInside fs.blockSize (fs.disk b) off name then some (decide (SameBytes (fs.disk b) off name), fs) else none := by
  induction name generalizing off with
  | nil => rfl
  | cons c rest ih =>
      rw [memcmpName, bind_run, inBlock]
      simp only [memcmpInside_cons, sameBytes_cons]
      by_cases hin : off + 1 ≤ fs.blockSize
      · rw [if_pos hin, Option.bind_some, get_bind]
        dsimp only
        by_cases hc : fs.disk b off = c
        · rw [if_pos hc, ih]
          simp [hc, show off < fs.blockSize from hin]
        · rw [if_neg hc]
          simp [hc, show off < fs.blockSize from hin]
      · rw [if_neg hin, Option.bind_none, if_neg fun h => hin h.1]

/-- A record is compared with a name, and if it is another then its `rec_len` is read. -/
theorem lookup_record {α : Type} (b off : Nat) (name : Name) (found : Ext2M α) (next : Nat → Ext2M α) :
    (do if ← entryMatches b off name then found else next (← load16 b (off + 4)) : Ext2M α) fs =
      if LookupInside fs.blockSize (fs.disk b) off name then
        if Named (fs.disk b) off name then found fs else next (rd16 (fs.disk b) (off + 4)) fs
      else none := by
  rw [bind_run, entryMatches, bind_run]
  by_cases h4 : off + 4 ≤ fs.blockSize
  swap
  · rw [if_neg fun h => h4 (by have := h.1; omega)]
    simp [load32, inBlock, h4]
  have h32 : load32 b off fs = _ := load32_run h4
  rw [h32, Option.bind_some]
  dsimp only
  by_cases hdead : rd32 (fs.disk b) off = 0
  · rw [if_pos hdead, pure_run, Option.bind_some]
    dsimp only
    have hnot : ¬ Named (fs.disk b) off name := fun h => h.1 hdead
    rw [if_neg (by decide), bind_run, if_neg hnot]
    by_cases h6 : off + 6 ≤ fs.blockSize
    · have h16 : load16 b (off + 4) fs = _ := load16_run h6
      rw [h16, if_pos ⟨h6, fun hlive => absurd hdead hlive⟩, Option.bind_some]
    · rw [if_neg fun h => h6 h.1]
      simp [load16, inBlock, show ¬ off + 4 + 2 ≤ fs.blockSize by omega]
  rw [if_neg hdead, bind_run]
  by_cases h7 : off + 7 ≤ fs.blockSize
  swap
  · rw [if_neg fun h => h7 (h.2 hdead).1]
    simp [load8, inBlock, show ¬ off + 6 + 1 ≤ fs.blockSize by omega]
  have h8 : load8 b (off + 6) fs = _ := load8_run h7
  have h16 : load16 b (off + 4) fs = _ := load16_run (by omega)
  rw [h8, Option.bind_some]
  dsimp only
  by_cases hlen : (fs.disk b (off + 6)).toNat = name.length
  · rw [if_neg (fun h => h hlen), memcmpName_run]
    by_cases hin : MemcmpInside fs.blockSize (fs.disk b) (off + 8) name
    · rw [if_pos hin, if_pos ⟨by omega, fun _ => ⟨h7, fun _ => hin⟩⟩, Option.bind_some]
      by_cases hsame : SameBytes (fs.disk b) (off + 8) name
      · simp [Named, hdead, hlen, hsame]
      · simp [Named, hdead, hlen, hsame, h16]
    · rw [if_neg hin, Option.bind_none, if_neg fun h => hin ((h.2 hdead).2 hlen)]
  · rw [if_pos hlen, pure_run, if_pos ⟨by omega, fun _ => ⟨h7, fun h => absurd h hlen⟩⟩, if_neg fun h => hlen h.2.1]
    simp [h16]

/-! ### The loops -/

/-- The rounds of a loop do what `visit` says, unless a block is refused; `aside` is what it has besides the
offset. -/
def Rounds {α γ : Type} (fs : Fs) (visit : Nat → Visit) (aside : γ → Prop) (loop : Nat → Nat → γ → Ext2M α) : Prop :=
  (∀ o c fs', loop 0 o c fs' = none) ∧ ∀ fs', Alike fs fs' → ∀ k o c, aside c →
    ¬ fs'.Reliable ∧ (∃ r, loop (k + 1) o c fs' = some r) ∨
      match visit o with
      | .fails => loop (k + 1) o c fs' = none
      | .ends => ∃ r, loop (k + 1) o c fs' = some r
      | .next o' => ∃ fs'' c', Quiet fs' fs'' ∧ aside c' ∧ loop (k + 1) o c fs' = loop k o' c' fs''

section Rounds

variable {α γ : Type} {visit : Nat → Visit} {aside : γ → Prop} {loop : Nat → Nat → γ → Ext2M α}

/-- A loop with an outcome has come to an end. -/
theorem Rounds.endsIn (h : Rounds fs visit aside loop) (hfs : Alike fs fs') (hr : fs'.Reliable) {k o : Nat} {c : γ}
    (hc : aside c) {r : α × Fs} (hrun : loop k o c fs' = some r) : ∃ n, EndsIn visit n o := by
  induction k generalizing o c with
  | zero =>
      rw [h.1] at hrun
      cases hrun
  | succ k ih =>
      have hround := (h.2 fs' hfs k o c hc).resolve_left fun hn => hn.1 hr
      cases hv : visit o with
      | fails =>
          rw [hv] at hround
          rw [hround] at hrun
          cases hrun
      | ends => exact ⟨0, .ends hv⟩
      | next o' =>
          rw [hv] at hround
          obtain ⟨fs'', c', hq, hc', heq⟩ := hround
          rw [heq, hq.eq hr] at hrun
          obtain ⟨n, hn⟩ := ih hc' hrun
          exact ⟨n + 1, .next hv hn⟩

/-- A loop that comes to an end has an outcome, whichever blocks are refused. -/
theorem Rounds.total (h : Rounds fs visit aside loop) {n o : Nat} (hends : EndsIn visit n o)
    (hfs : Alike fs fs') {k : Nat} (hk : n < k) {c : γ} (hc : aside c) : ∃ r, loop k o c fs' = some r := by
  induction hends generalizing fs' k c with
  | @ends o hv =>
      obtain ⟨k, rfl⟩ : ∃ k', k = k' + 1 := ⟨k - 1, by omega⟩
      have hround := h.2 fs' hfs k o c hc
      rw [hv] at hround
      exact hround.elim (fun hr => hr.2) id
  | @next n o o' hv _ ih =>
      obtain ⟨k, rfl⟩ : ∃ k', k = k' + 1 := ⟨k - 1, by omega⟩
      have hround := h.2 fs' hfs k o c hc
      rw [hv] at hround
      rcases hround with hr | ⟨fs'', c', hq, hc', heq⟩
      · exact hr.2
      · rw [heq]
        exact ih (hfs.quiet hq) (by omega) hc'

end Rounds

/-- The rounds of a loop from what it does at a record. -/
theorem rounds_of_body {α γ : Type} (hm : Mapped fs.blockSize) {look : Nat → Bytes → Nat → Visit} {aside : γ → Prop}
    {loop : Nat → Nat → γ → Ext2M α} {body : Nat → Nat → γ → Option Nat → Ext2M α} {e₀ e₁ e₂ : α}
    (hzero : ∀ o c fs', loop 0 o c fs' = none)
    (hrun : ∀ k o c, loop (k + 1) o c = if o < dir.size then do
        let b ← scanBlock dir o
        if b = 0 then return e₀ else getBlock b >>= body k o c
      else return e₂) (hnone : ∀ k o c, body k o c none = pure e₁)
    (hsome : ∀ k o c b fs', Alike fs fs' → aside c → match look o (fs.disk b) (o % fs.blockSize) with
      | .fails => body k o c (some b) fs' = none
      | .ends => ∃ r, body k o c (some b) fs' = some r
      | .next o' => ∃ c', aside c' ∧ body k o c (some b) fs' = loop k o' c' fs') :
    Rounds fs (fs.scan dir look) aside loop := by
  refine ⟨hzero, fun fs' hfs k o c hc => ?_⟩
  have hm' : Mapped fs'.blockSize := by
    obtain ⟨f, rfl⟩ := hfs
    exact hm
  rw [← hfs.scan]
  rcases scan_round hm' look (hrun k o c) (hnone k o c) with ⟨e, fs₁, -, hend, -, hrun⟩ | ⟨fs₁, hq, hlook, hrun⟩
  · rcases hend with hr | hend
    · exact .inl ⟨hr, _, hrun⟩
    · rw [hend]
      exact .inr ⟨_, hrun⟩
  · right
    have hbody := hsome k o c (fs'.fileBlock dir (o / fs'.blockSize)) fs₁ (hfs.quiet hq) hc
    have hsame : fs.disk = fs'.disk ∧ fs.blockSize = fs'.blockSize := by
      obtain ⟨f, rfl⟩ := hfs
      exact ⟨rfl, rfl⟩
    rw [hsame.1, hsame.2] at hbody
    rw [hlook, hrun]
    generalize look o (fs'.disk (fs'.fileBlock dir (o / fs'.blockSize))) (o % fs'.blockSize) = v at hbody ⊢
    cases v with
    | fails => exact hbody
    | ends => exact hbody
    | next o' =>
        obtain ⟨c', hc', heq⟩ := hbody
        exact ⟨fs₁, c', hq, hc', heq⟩

section Loops

variable {name : Name}

theorem lookup_rounds (hm : Mapped fs.blockSize) :
    Rounds fs (fs.scan dir (lookupAt fs.blockSize name)) (fun _ : Unit => True) fun k o _ => lookupLoop dir name k o := by
  refine rounds_of_body hm (fun _ _ _ => rfl) (fun k o _ => lookupLoop.eq_2 dir name o k) (fun _ _ _ => rfl) ?_
  intro k o _ b fs' hfs _
  obtain ⟨f, rfl⟩ := hfs
  dsimp only
  rw [get_bind]
  dsimp only
  rw [lookup_record, lookupAt]
  dsimp only
  by_cases hin : LookupInside fs.blockSize (fs.disk b) (o % fs.blockSize) name
  swap
  · rw [if_neg hin, if_neg hin]
  rw [if_pos hin, if_pos hin]
  by_cases hnamed : Named (fs.disk b) (o % fs.blockSize) name
  · rw [if_pos hnamed, if_pos hnamed, bind_run, load32_run (by have := hin.1; dsimp only; omega)]
    exact ⟨_, rfl⟩
  · rw [if_neg hnamed, if_neg hnamed]
    exact ⟨(), trivial, rfl⟩

/-- The record before is one whose `rec_len` was read. -/
theorem remove_rounds (hm : Mapped fs.blockSize) :
    Rounds fs (fs.scan dir (lookupAt fs.blockSize name))
      (fun prev : Option (Nat × Nat) => ∀ p poff, prev = some (p, poff) → poff + 6 ≤ fs.blockSize)
      fun k o prev => removeLoop dir name k o prev := by
  refine rounds_of_body hm (fun _ _ _ => rfl) (fun k o prev => removeLoop.eq_2 dir name o prev k) (fun _ _ _ => rfl) ?_
  intro k o prev b fs' hfs hprev
  obtain ⟨f, rfl⟩ := hfs
  dsimp only
  rw [get_bind]
  dsimp only
  rw [lookup_record, lookupAt]
  dsimp only
  by_cases hin : LookupInside fs.blockSize (fs.disk b) (o % fs.blockSize) name
  swap
  · rw [if_neg hin, if_neg hin]
  rw [if_pos hin, if_pos hin]
  by_cases hnamed : Named (fs.disk b) (o % fs.blockSize) name
  · rw [if_pos hnamed, if_pos hnamed]
    cases prev with
    | none =>
        dsimp only
        rw [bind_run, store32, store_run (by have := hin.1; dsimp only; omega)]
        exact ⟨_, rfl⟩
    | some q =>
        obtain ⟨p, poff⟩ := q
        have hpoff := hprev p poff rfl
        dsimp only
        rw [bind_run, load16_run (by dsimp only; omega), Option.bind_some, bind_run,
          load16_run (by have := hin.1; dsimp only; omega), Option.bind_some, bind_run, store16,
          store_run (by dsimp only; omega)]
        exact ⟨_, rfl⟩
  · rw [if_neg hnamed, if_neg hnamed]
    refine ⟨_, fun p poff he => ?_, rfl⟩
    cases he
    exact hin.1

theorem store_inside {b off n : Nat} {g : Bytes → Bytes} {r : Unit × Fs} (h : store b off n g fs = some r) :
    off + n ≤ fs.blockSize := by
  obtain ⟨u, fs'⟩ := r
  obtain ⟨_, fs₁, h₁, -⟩ := bind_some.mp h
  by_contra hout
  rw [inBlock, if_neg hout] at h₁
  cases h₁

/-- A record is written if and only if it is inside the block. -/
theorem storeEntry_iff {b off inode recLen fileType : Nat} :
    (∃ r, storeEntry b off inode recLen fileType name fs = some r) ↔ off + 8 + name.length ≤ fs.blockSize := by
  constructor
  · rintro ⟨⟨u, fs₅⟩, h⟩
    obtain ⟨_, fs₁, h₁, h⟩ := bind_some.mp h
    obtain ⟨_, fs₂, h₂, h⟩ := bind_some.mp h
    obtain ⟨_, fs₃, h₃, h⟩ := bind_some.mp h
    obtain ⟨_, fs₄, h₄, h⟩ := bind_some.mp h
    have hall := (((stays_store _ _ _ _ _ _ _ h₁).trans (stays_store _ _ _ _ _ _ _ h₂)).trans
      (stays_store _ _ _ _ _ _ _ h₃)).trans (stays_store _ _ _ _ _ _ _ h₄)
    rw [← hall.blockSize]
    exact store_inside h
  · intro h
    have hin : ∀ {fs₁ : Fs} {o n : Nat} {g : Bytes → Bytes}, fs₁.blockSize = fs.blockSize → o + n ≤ fs.blockSize →
        store b o n g fs₁ = some ((), fs₁.setBlock b (g (fs₁.disk b))) := fun hbs ho => store_run (hbs.symm ▸ ho)
    have hrun : Reaches (storeEntry b off inode recLen fileType name) fs fun _ _ => True :=
      .step (hin rfl (by omega)) (.step (hin rfl (by omega)) (.step (hin rfl (by omega)) (.step (hin rfl (by omega))
        ⟨_, _, hin rfl h, trivial⟩)))
    obtain ⟨u, fs', hfs, -⟩ := hrun
    exact ⟨_, hfs⟩

/-- The record at `off` is cut after its name, and the rest made a new record. -/
def splitEntry (b off realLen inode extra fileType : Nat) (name : Name) : Ext2M (Option (Except Err Unit)) := do
  store16 b (off + 4) realLen
  storeEntry b (off + realLen) inode extra fileType name
  return some (.ok ())

theorem splitEntry_iff {b off realLen inode extra fileType : Nat} (h6 : off + 6 ≤ fs.blockSize) :
    (∃ r, splitEntry b off realLen inode extra fileType name fs = some r) ↔
      off + realLen + 8 + name.length ≤ fs.blockSize := by
  have hstore : store16 b (off + 4) realLen fs = _ := store_run h6
  have hentry := @storeEntry_iff (fs.setBlock b (wr16 (fs.disk b) (off + 4) realLen)) name b (off + realLen) inode extra fileType
  rw [splitEntry, bind_run, hstore, Option.bind_some]
  refine Iff.trans ?_ hentry
  constructor
  · rintro ⟨⟨_, _⟩, h⟩
    obtain ⟨u, fs₁, h₁, -⟩ := bind_some.mp h
    exact ⟨_, h₁⟩
  · rintro ⟨⟨u, fs₁⟩, h₁⟩
    exact ⟨_, bind_some.mpr ⟨u, fs₁, h₁, rfl⟩⟩

/-- A record is looked at for its room. -/
theorem add_record (b off inode fileType : Nat) (next : Nat → Ext2M (Option (Except Err Unit))) :
    (do
      let realLen := alignUp4 (8 + (← load8 b (off + 6)))
      let recLen ← load16 b (off + 4)
      let extra := sub32 recLen realLen
      if extra ≥ alignUp4 (8 + name.length) then splitEntry b off realLen inode extra fileType name
      else next recLen : Ext2M (Option (Except Err Unit))) fs =
    if AddInside fs.blockSize (fs.disk b) off name then
      if Roomy (fs.disk b) off name then
        splitEntry b off (realLen (fs.disk b) off) inode (sub32 (rd16 (fs.disk b) (off + 4)) (realLen (fs.disk b) off))
          fileType name fs
      else next (rd16 (fs.disk b) (off + 4)) fs
    else none := by
  by_cases h7 : off + 7 ≤ fs.blockSize
  swap
  · rw [if_neg fun h => h7 h.1, bind_run]
    simp [load8, inBlock, show ¬ off + 6 + 1 ≤ fs.blockSize by omega]
  have h8 : load8 b (off + 6) fs = _ := load8_run h7
  have h16 : load16 b (off + 4) fs = _ := load16_run (by omega)
  rw [bind_run, h8, Option.bind_some]
  dsimp only
  rw [bind_run, h16, Option.bind_some]
  dsimp only
  by_cases hroom : Roomy (fs.disk b) off name
  · have hge : sub32 (rd16 (fs.disk b) (off + 4)) (alignUp4 (8 + (fs.disk b (off + 6)).toNat)) ≥ alignUp4 (8 + name.length) :=
      hroom
    rw [if_pos hge, if_pos hroom]
    split
    · rfl
    · next hout =>
        refine Option.eq_none_iff_forall_ne_some.mpr fun r hr => hout ⟨h7, fun _ => ?_⟩
        exact (splitEntry_iff (by omega)).mp ⟨r, hr⟩
  · have hlt : ¬ sub32 (rd16 (fs.disk b) (off + 4)) (alignUp4 (8 + (fs.disk b (off + 6)).toNat)) ≥ alignUp4 (8 + name.length) :=
      hroom
    rw [if_neg hlt, if_pos ⟨h7, fun h => absurd h hroom⟩, if_neg hroom]

theorem add_rounds (hm : Mapped fs.blockSize) (inode fileType : Nat) :
    Rounds fs (fs.scan dir (addAt fs.blockSize name)) (fun _ : Unit => True)
      fun k o _ => addLoop dir name inode fileType k o := by
  refine rounds_of_body hm (fun _ _ _ => rfl) (fun k o _ => addLoop.eq_2 dir name inode fileType o k) (fun _ _ _ => rfl) ?_
  intro k o _ b fs' hfs _
  have hrecord := @add_record fs' name b (o % fs'.blockSize) inode fileType fun recLen =>
    addLoop dir name inode fileType k (u32 (o + recLen))
  obtain ⟨f, rfl⟩ := hfs
  dsimp only at hrecord ⊢
  rw [get_bind, addAt]
  dsimp only
  simp only [splitEntry] at hrecord
  rw [hrecord]
  by_cases hin : AddInside fs.blockSize (fs.disk b) (o % fs.blockSize) name
  swap
  · rw [if_neg hin, if_neg hin]
  rw [if_pos hin, if_pos hin]
  by_cases hroom : Roomy (fs.disk b) (o % fs.blockSize) name
  · rw [if_pos hroom, if_pos hroom]
    exact (splitEntry_iff (by have := hin.1; dsimp only; omega)).mpr (hin.2 hroom)
  · rw [if_neg hroom, if_neg hroom]
    exact ⟨(), trivial, rfl⟩

end Loops

/-! ### Enumeration -/

/-- A record is read by `ext2_readdir`. -/
theorem read_record (b o off : Nat) (loop : Nat → Ext2M (Nat × Except Err DirEntry)) :
    (do
      let next := o + (← load16 b (off + 4))
      let inode ← load32 b off
      if inode ≠ 0 then
        let len ← load8 b (off + 6)
        inBlock (off + 8) len
        let fs ← get
        let name := (List.range len).map fun j => fs.disk b (off + 8 + j)
        return (next, .ok ⟨name, inode, ← load8 b (off + 7)⟩)
      else loop next : Ext2M (Nat × Except Err DirEntry)) fs =
    if ReadInside fs.blockSize (fs.disk b) off then
      if rd32 (fs.disk b) off ≠ 0 then
        some ((o + rd16 (fs.disk b) (off + 4), .ok (recordAt (fs.disk b) off)), fs)
      else loop (o + rd16 (fs.disk b) (off + 4)) fs
    else none := by
  by_cases h6 : off + 6 ≤ fs.blockSize
  swap
  · rw [if_neg fun h => h6 h.1, bind_run]
    simp [load16, inBlock, show ¬ off + 4 + 2 ≤ fs.blockSize by omega]
  have h16 : load16 b (off + 4) fs = _ := load16_run h6
  have h32 : load32 b off fs = _ := load32_run (by omega)
  rw [bind_run, h16, Option.bind_some]
  dsimp only
  rw [bind_run, h32, Option.bind_some]
  dsimp only
  by_cases hlive : rd32 (fs.disk b) off ≠ 0
  swap
  · rw [if_neg hlive, if_neg hlive, if_pos ⟨h6, fun h => absurd h hlive⟩]
  rw [if_pos hlive, if_pos hlive]
  by_cases hname : off + 8 + (fs.disk b (off + 6)).toNat ≤ fs.blockSize
  · rw [if_pos ⟨h6, fun _ => hname⟩]
    have h8 : load8 b (off + 6) fs = _ := load8_run (by omega)
    have htype : load8 b (off + 7) fs = _ := load8_run (by omega)
    simp only [bind_run, h8, Option.bind_some, inBlock_run hname, get_run, htype, pure_run]
    rfl
  · rw [if_neg fun h => hname (h.2 hlive), bind_run]
    by_cases h7 : off + 6 + 1 ≤ fs.blockSize
    · have h8 : load8 b (off + 6) fs = _ := load8_run h7
      rw [h8, Option.bind_some]
      dsimp only
      rw [bind_run, inBlock, if_neg hname, Option.bind_none]
    · simp [load8, inBlock, h7]

/-- A round of `ext2_readdir`: it stops there, it leaves the block, or it hands a record out or goes on. -/
theorem readdir_round (hm : Mapped fs.blockSize) (hfs : Alike fs fs') (k o : Nat) :
    (∃ e fs'', readdirLoop dir (k + 1) o fs' = some ((o, .error e), fs'') ∧
      (¬ fs'.Reliable ∨ fs.scan dir (readAt fs.blockSize) o = .ends)) ∨
    (readdirLoop dir (k + 1) o fs' = none ∧ fs.scan dir (readAt fs.blockSize) o = .fails) ∨
    ∃ o' fs'', fs.scan dir (readAt fs.blockSize) o = .next o' ∧ Quiet fs' fs'' ∧
      ((∃ e, readdirLoop dir (k + 1) o fs' = some ((o', .ok e), fs'')) ∨
        readdirLoop dir (k + 1) o fs' = readdirLoop dir k o' fs'') := by
  have hm' : Mapped fs'.blockSize := by
    obtain ⟨f, rfl⟩ := hfs
    exact hm
  have hbs : fs'.blockSize = fs.blockSize := by
    obtain ⟨f, rfl⟩ := hfs
    rfl
  rw [← hfs.scan, ← hbs]
  rcases scan_round hm' (readAt fs'.blockSize) (readdirLoop.eq_2 dir o k) rfl with
    ⟨e, fs₁, he, hend, -, hrun⟩ | ⟨fs₁, hq, hlook, hrun⟩
  · left
    rcases he with rfl | rfl | rfl
    · exact ⟨_, fs₁, hrun, hend⟩
    · exact ⟨_, fs₁, hrun, hend⟩
    · exact ⟨_, fs₁, hrun, hend⟩
  right
  obtain ⟨c, rfl⟩ := hq
  dsimp only at hrun
  rw [get_bind, read_record] at hrun
  dsimp only at hrun
  rw [hlook, readAt]
  by_cases hin : ReadInside fs'.blockSize (fs'.disk (fs'.fileBlock dir (o / fs'.blockSize))) (o % fs'.blockSize)
  · rw [if_pos hin] at hrun
    rw [if_pos hin]
    refine .inr ⟨_, _, rfl, ⟨c, rfl⟩, ?_⟩
    split at hrun
    · exact .inl ⟨_, hrun⟩
    · exact .inr hrun
  · rw [if_neg hin] at hrun
    rw [if_neg hin]
    exact .inl ⟨hrun, rfl⟩

/-- Without faults, a call that hands a record out has come nearer to the end, and one that does not is there. -/
theorem readdirLoop_ends (hm : Mapped fs.blockSize) {fs' fs₁ : Fs} (hfs : Alike fs fs') (hr : fs'.Reliable) {k o o₁ : Nat}
    {r : Except Err DirEntry} (hrun : readdirLoop dir k o fs' = some ((o₁, r), fs₁)) :
    fs₁ = fs' ∧ ((∃ e, r = .ok e) → (∃ n, EndsIn (fs.scan dir (readAt fs.blockSize)) n o₁) →
      ∃ n, EndsIn (fs.scan dir (readAt fs.blockSize)) n o) ∧
      ((∃ e, r = .error e) → ∃ n, EndsIn (fs.scan dir (readAt fs.blockSize)) n o) := by
  refine ⟨(reads_readdirLoop _ _ _ _ _ _ hrun).eq hr, ?_⟩
  induction k generalizing o with
  | zero => cases hrun
  | succ k ih =>
      rcases @readdir_round fs fs' dir hm hfs k o with ⟨e, fs'', he, hend⟩ | ⟨hnone, -⟩ | ⟨o', fs'', hv, hq, hnext⟩
      · rw [he] at hrun
        cases hrun
        refine ⟨fun h => ?_, fun _ => ⟨0, .ends (hend.resolve_left fun h => h hr)⟩⟩
        obtain ⟨_, h⟩ := h
        cases h
      · rw [hnone] at hrun
        cases hrun
      · rcases hnext with ⟨e, he⟩ | he
        · rw [he] at hrun
          cases hrun
          refine ⟨fun _ hn => ?_, fun h => ?_⟩
          · obtain ⟨n, hn⟩ := hn
            exact ⟨n + 1, .next hv hn⟩
          · obtain ⟨_, h⟩ := h
            cases h
        · rw [he, hq.eq hr] at hrun
          obtain ⟨hok, herr⟩ := ih hrun
          refine ⟨fun h hn => ?_, fun h => ?_⟩
          · obtain ⟨n, hn⟩ := hok h hn
            exact ⟨n + 1, .next hv hn⟩
          · obtain ⟨n, hn⟩ := herr h
            exact ⟨n + 1, .next hv hn⟩

/-- An enumeration that comes to an end does so in calls that return. -/
theorem readdirLoop_total (hm : Mapped fs.blockSize) {n o : Nat} (hends : EndsIn (fs.scan dir (readAt fs.blockSize)) n o)
    (hfs : Alike fs fs') {k : Nat} (hk : n < k) :
    ∃ o₁ r fs₁, readdirLoop dir k o fs' = some ((o₁, r), fs₁) ∧
      ((∃ e, r = .error e) ∨ ∃ m < n, EndsIn (fs.scan dir (readAt fs.blockSize)) m o₁) := by
  induction hends generalizing fs' k with
  | @ends o hv =>
      obtain ⟨k, rfl⟩ : ∃ k', k = k' + 1 := ⟨k - 1, by omega⟩
      rcases @readdir_round fs fs' dir hm hfs k o with ⟨e, fs'', he, -⟩ | ⟨-, hv'⟩ | ⟨o', fs'', hv', -, -⟩
      · exact ⟨_, _, _, he, .inl ⟨e, rfl⟩⟩
      · rw [hv] at hv'
        cases hv'
      · rw [hv] at hv'
        cases hv'
  | @next n o o' hv t ih =>
      obtain ⟨k, rfl⟩ : ∃ k', k = k' + 1 := ⟨k - 1, by omega⟩
      rcases @readdir_round fs fs' dir hm hfs k o with ⟨e, fs'', he, -⟩ | ⟨-, hv'⟩ | ⟨o'', fs'', hv', hq, hnext⟩
      · exact ⟨_, _, _, he, .inl ⟨e, rfl⟩⟩
      · rw [hv] at hv'
        cases hv'
      · rw [hv] at hv'
        cases hv'
        rcases hnext with ⟨e, he⟩ | he
        · exact ⟨_, _, _, he, .inr ⟨n, by omega, t⟩⟩
        · obtain ⟨o₁, r, fs₁, hrun, hr⟩ := ih (hfs.quiet hq) (show n < k by omega)
          refine ⟨o₁, r, fs₁, he.trans hrun, hr.imp_right fun h => ?_⟩
          obtain ⟨m, hm, hends⟩ := h
          exact ⟨m, by omega, hends⟩


theorem readAll_ends (hm : Mapped fs.blockSize) (hfs : Alike fs fs') (hr : fs'.Reliable) {k : Nat} {iter : DirIter}
    (hdir : iter.dir.inode = dir) {r : List DirEntry × Fs} (hrun : readAll k iter fs' = some r) :
    ∃ n, EndsIn (fs.scan dir (readAt fs.blockSize)) n iter.offset := by
  induction k generalizing iter r with
  | zero => cases hrun
  | succ k ih =>
      obtain ⟨es, fs₂⟩ := r
      obtain ⟨⟨e, iter'⟩, fs₁, h₁, hrest⟩ := bind_some.mp hrun
      obtain ⟨⟨o₁, e'⟩, fs₁', hloop, hpure⟩ := bind_some.mp h₁
      cases hpure
      rw [hdir] at hloop
      obtain ⟨rfl, hok, herr⟩ := readdirLoop_ends hm hfs hr hloop
      cases e with
      | error e => exact herr ⟨e, rfl⟩
      | ok e =>
          obtain ⟨es', fs₃, h₃, -⟩ := bind_some.mp hrest
          refine hok ⟨e, rfl⟩ (ih ?_ h₃)
          exact hdir

theorem readAll_total (hm : Mapped fs.blockSize) {n : Nat} {iter : DirIter} (hdir : iter.dir.inode = dir)
    (hends : EndsIn (fs.scan dir (readAt fs.blockSize)) n iter.offset) (hfs : Alike fs fs') :
    ∃ k r, readAll k iter fs' = some r := by
  induction n using Nat.strong_induction_on generalizing iter fs' with
  | _ n ih =>
      have hle := hends.le fun o ho => fs.scan_end dir (readAt fs.blockSize) ho
      obtain ⟨o₁, r, fs₁, hrun, hr⟩ := readdirLoop_total hm hends hfs (show n < dir.size + 1 by omega)
      have hcall : ext2Readdir iter fs' = some ((r, { iter with offset := o₁ }), fs₁) := by
        rw [ext2Readdir, bind_run, hdir, hrun]
        rfl
      cases r with
      | error e =>
          refine ⟨1, ([], fs₁), ?_⟩
          rw [readAll, bind_run, hcall]
          rfl
      | ok e =>
          obtain ⟨m, hlt, hends'⟩ := hr.resolve_left fun h => (by obtain ⟨_, h⟩ := h; cases h)
          have hfs₁ := hfs.quiet (reads_readdirLoop _ _ _ _ _ _ hrun)
          have hdir' : ({ iter with offset := o₁ } : DirIter).dir.inode = dir := hdir
          obtain ⟨k, ⟨es, fs₂⟩, hrest⟩ := ih m hlt hdir' hends' hfs₁
          refine ⟨k + 1, (e :: es, fs₂), ?_⟩
          rw [readAll, bind_run, hcall, Option.bind_some]
          exact bind_some.mpr ⟨es, fs₂, hrest, rfl⟩

/-! ### The operations -/

/-- The four operations on the directory `n` return, whichever blocks are refused, and so read and write inside
their blocks alone. -/
structure ScansEnd (fs : Fs) (n : Nat) (name : Name) : Prop where
  lookup : ∀ faults, ∃ r, ext2Lookup n name { fs with faults := faults } = some r
  add : ∀ faults inode fileType, ∃ r, ext2AddDirEntry n name inode fileType { fs with faults := faults } = some r
  remove : ∀ faults, ∃ r, ext2RemoveDirEntry n name { fs with faults := faults } = some r
  /-- Calls of `ext2_readdir` on a new iterator come to an end. -/
  enumerate : ∀ faults position, ∃ k r,
    readAll k ⟨⟨n, fs.inodeAt n, position, true⟩, 0⟩ { fs with faults := faults } = some r

/-- From offset 0, no record that a scan comes to goes over the end of its block, and none leads back to itself. -/
structure SoundRecords (fs : Fs) (dir : Inode) (name : Name) : Prop where
  lookup : Proceeds (fs.scan dir (lookupAt fs.blockSize name)) 0
  add : Proceeds (fs.scan dir (addAt fs.blockSize name)) 0
  enumerate : Proceeds (fs.scan dir (readAt fs.blockSize)) 0

section Operations

variable {n : Nat} {name : Name}

/-- An operation that begins with reading an inode. -/
theorem readInode_then {α : Type} (hreg : Regular fs) (h0 : n ≠ 0) (hn : n ≤ fs.sb.inodesCount) (hfs : Alike fs fs')
    (rest : Except Err Inode → Ext2M α) :
    (ext2ReadInode n >>= rest) fs' = rest (.ok (fs.inodeAt n)) fs'.asked ∨
      ¬ fs'.Reliable ∧ (ext2ReadInode n >>= rest) fs' = rest (.error .io) fs'.asked := by
  have hreg' := hfs.regular hreg
  obtain ⟨f, rfl⟩ := hfs
  rcases readInode_total hreg' h0 hn with h | ⟨hr, h⟩
  · left
    rw [bind_run, h]
    rfl
  · right
    refine ⟨hr, ?_⟩
    rw [bind_run, h]
    rfl

/-- `ext2_add_dir_entry` after its search. -/
theorem addNew_total (hreg : Regular fs) (h0 : n ≠ 0) (hn : n ≤ fs.sb.inodesCount) (hname : name.length ≤ 255)
    (inode fileType : Nat) : ∃ r, (do
      let fs ← get
      if fs.blockSize = 0 then undefined
      else
        let (blockNum, dir) ← ext2GetBlockNum dir (dir.size / fs.blockSize) true
        if blockNum = 0 then return .error .noSpace
        else
          match ← getBlock blockNum with
          | none => return .error .io
          | some b =>
              storeEntry b 0 inode fs.blockSize fileType name
              let _ ← ext2WriteInode n (dir.setSize (dir.size + fs.blockSize))
              return .ok () : Ext2M (Except Err Unit)) fs = some r := by
  have hsize : dir.size < 2 ^ 32 := rd32_lt _ _
  have hindex : dir.size / fs.blockSize < 2 ^ 32 := Nat.lt_of_le_of_lt (Nat.div_le_self _ _) hsize
  obtain ⟨b, dir', fs₁, hmap⟩ := getBlockNum_total hreg dir hindex
  have hsteady := stays_getBlockNum _ _ _ _ _ _ hmap
  rw [get_bind, if_neg hreg.blockSize_ne_zero, bind_run, hmap, Option.bind_some]
  dsimp only
  by_cases hb : b = 0
  · rw [if_pos hb]
    exact ⟨_, rfl⟩
  rw [if_neg hb, bind_run]
  rcases getBlock_cases fs₁ b with hget | ⟨-, hget⟩
  swap
  · rw [hget]
    exact ⟨_, rfl⟩
  have hasked := hsteady.trans (.of_quiet (quiet_asked fs₁))
  have hfits : 0 + 8 + name.length ≤ fs₁.asked.blockSize := by
    have := hreg.mapped.large
    rw [hasked.blockSize]
    omega
  obtain ⟨⟨u, fs₂⟩, hstore⟩ := storeEntry_iff.mpr hfits
  rw [hget, Option.bind_some]
  dsimp only
  rw [bind_run, hstore, Option.bind_some, bind_run]
  have hstored := hasked.trans (stays_storeEntry _ _ _ _ _ _ _ _ _ hstore)
  rcases writeInode_total (hstored.regular hreg) h0 (hstored.inodesCount.symm ▸ hn) (dir'.setSize (dir'.size + fs.blockSize)) with
    hw | ⟨-, hw⟩
  · rw [hw]
    exact ⟨_, rfl⟩
  · rw [hw]
    exact ⟨_, rfl⟩

/-- The operations go on to their loops, unless the directory's inode is refused. -/
theorem lookup_start (hreg : Regular fs) (h0 : n ≠ 0) (hn : n ≤ fs.sb.inodesCount) (hdir : (fs.inodeAt n).isDir = true)
    (hfs : Alike fs fs') :
    ext2Lookup n name fs' = lookupLoop (fs.inodeAt n) name ((fs.inodeAt n).size + 1) 0 fs'.asked ∨
      ¬ fs'.Reliable ∧ ∃ r, ext2Lookup n name fs' = some r := by
  rw [ext2Lookup]
  refine (readInode_then hreg h0 hn hfs _).imp (fun h => ?_) fun h => ⟨h.1, _, h.2⟩
  rw [h]
  dsimp only
  rw [if_pos hdir]

theorem remove_start (hreg : Regular fs) (h0 : n ≠ 0) (hn : n ≤ fs.sb.inodesCount) (hdir : (fs.inodeAt n).isDir = true)
    (hfs : Alike fs fs') :
    ext2RemoveDirEntry n name fs' = removeLoop (fs.inodeAt n) name ((fs.inodeAt n).size + 1) 0 none fs'.asked ∨
      ¬ fs'.Reliable ∧ ∃ r, ext2RemoveDirEntry n name fs' = some r := by
  rw [ext2RemoveDirEntry]
  refine (readInode_then hreg h0 hn hfs _).imp (fun h => ?_) fun h => ⟨h.1, _, h.2⟩
  rw [h]
  dsimp only
  rw [if_pos hdir]

/-- `ext2_add_dir_entry` has an outcome if and only if its search has one. -/
theorem add_start (hreg : Regular fs) (h0 : n ≠ 0) (hn : n ≤ fs.sb.inodesCount) (hdir : (fs.inodeAt n).isDir = true)
    (hname : name.length ≤ 255) (inode fileType : Nat) (hfs : Alike fs fs') :
    ((∃ r, ext2AddDirEntry n name inode fileType fs' = some r) ↔
      ∃ r, addLoop (fs.inodeAt n) name inode fileType ((fs.inodeAt n).size + 1) 0 fs'.asked = some r) ∨
      ¬ fs'.Reliable ∧ ∃ r, ext2AddDirEntry n name inode fileType fs' = some r := by
  rw [ext2AddDirEntry]
  refine (readInode_then hreg h0 hn hfs _).imp (fun h => ?_) fun h => ⟨h.1, _, h.2⟩
  rw [h]
  dsimp only
  rw [hdir, Bool.not_true, if_neg (by decide)]
  constructor
  · rintro ⟨⟨r, fs₂⟩, hr⟩
    obtain ⟨q, fs₁, h₁, -⟩ := bind_some.mp hr
    exact ⟨_, h₁⟩
  · rintro ⟨⟨q, fs₁⟩, h₁⟩
    rw [bind_run, h₁, Option.bind_some]
    cases q with
    | some q => exact ⟨_, rfl⟩
    | none =>
        have hasked : Alike fs fs'.asked := hfs.quiet (quiet_asked fs')
        have hsteady := stays_addLoop _ _ _ _ _ _ _ _ _ h₁
        have hcount : fs₁.sb.inodesCount = fs.sb.inodesCount := by
          rw [hsteady.inodesCount]
          obtain ⟨f, hf⟩ := hasked
          rw [hf]
        exact addNew_total (hsteady.regular (hasked.regular hreg)) h0 (hcount.symm ▸ hn) hname inode fileType

/-- Records that the scans can follow let the operations return. -/
theorem SoundRecords.scansEnd (h : SoundRecords fs (fs.inodeAt n) name) (hreg : Regular fs) (h0 : n ≠ 0)
    (hn : n ≤ fs.sb.inodesCount) (hdir : (fs.inodeAt n).isDir = true) (hname : name.length ≤ 255) : ScansEnd fs n name := by
  have hsize : ∀ look o, (fs.inodeAt n).size ≤ o → fs.scan (fs.inodeAt n) look o = .ends :=
    fun look o ho => fs.scan_end _ look ho
  obtain ⟨k₁, hlookup⟩ := (endsIn_iff (hsize _)).mpr h.lookup
  obtain ⟨k₂, hadd⟩ := (endsIn_iff (hsize _)).mpr h.add
  obtain ⟨k₃, hread⟩ := (endsIn_iff (hsize _)).mpr h.enumerate
  have hk₁ : k₁ < (fs.inodeAt n).size + 1 := Nat.lt_succ_of_le (hlookup.le (hsize _))
  have hk₂ : k₂ < (fs.inodeAt n).size + 1 := Nat.lt_succ_of_le (hadd.le (hsize _))
  have hfs : ∀ f, Alike fs { fs with faults := f } := fun f => ⟨f, rfl⟩
  have hask : ∀ f, Alike fs (Fs.asked { fs with faults := f }) := fun f => (hfs f).quiet (quiet_asked _)
  refine ⟨fun f => ?_, fun f inode fileType => ?_, fun f => ?_, fun f position => ?_⟩
  · rcases lookup_start hreg h0 hn hdir (hfs f) with hrun | ⟨-, hrun⟩
    · rw [hrun]
      exact (lookup_rounds hreg.mapped).total hlookup (hask f) hk₁ (c := ()) trivial
    · exact hrun
  · rcases add_start hreg h0 hn hdir hname inode fileType (hfs f) with hrun | ⟨-, hrun⟩
    · rw [hrun]
      exact (add_rounds hreg.mapped inode fileType).total hadd (hask f) hk₂ (c := ()) trivial
    · exact hrun
  · rcases remove_start hreg h0 hn hdir (hfs f) with hrun | ⟨-, hrun⟩
    · rw [hrun]
      exact (remove_rounds hreg.mapped).total hlookup (hask f) hk₁ (c := none) fun p poff he => (by cases he)
    · exact hrun
  · exact readAll_total hreg.mapped rfl hread (hfs f)

/-- **Directory scans terminate and stay in the block** if and only if the records that they come to do not go over
the end of their blocks and none leads back to itself. -/
theorem scans_end_iff (hreg : Regular fs) (h0 : n ≠ 0) (hn : n ≤ fs.sb.inodesCount) (hdir : (fs.inodeAt n).isDir = true)
    (hname : name.length ≤ 255) : ScansEnd fs n name ↔ SoundRecords fs (fs.inodeAt n) name := by
  constructor
  swap
  · intro h
    exact h.scansEnd hreg h0 hn hdir hname
  intro h
  have hsize : ∀ look o, (fs.inodeAt n).size ≤ o → fs.scan (fs.inodeAt n) look o = .ends :=
    fun look o ho => fs.scan_end _ look ho
  -- the run in which no block is refused goes through all of the scan
  obtain ⟨fs', hfs'⟩ : ∃ fs' : Fs, fs' = { fs with faults := fun _ => false } := ⟨_, rfl⟩
  have hfs : Alike fs fs' := ⟨_, hfs'⟩
  have hr : fs'.Reliable := by
    rw [hfs']
    rfl
  have hasked : fs'.asked = fs' := (quiet_asked fs').eq hr
  refine ⟨(endsIn_iff (hsize _)).mp ?_, (endsIn_iff (hsize _)).mp ?_, (endsIn_iff (hsize _)).mp ?_⟩
  · obtain ⟨r, hrun⟩ := h.lookup fun _ => false
    rw [← hfs'] at hrun
    rw [(lookup_start hreg h0 hn hdir hfs).resolve_right fun h => h.1 hr, hasked] at hrun
    exact (lookup_rounds hreg.mapped).endsIn hfs hr (c := ()) trivial hrun
  · have hrun := h.add (fun _ => false) 0 0
    rw [← hfs'] at hrun
    rw [(add_start hreg h0 hn hdir hname 0 0 hfs).resolve_right fun h => h.1 hr, hasked] at hrun
    obtain ⟨r, hrun⟩ := hrun
    exact (add_rounds hreg.mapped 0 0).endsIn hfs hr (c := ()) trivial hrun
  · obtain ⟨k, r, hrun⟩ := h.enumerate (fun _ => false) 0
    rw [← hfs'] at hrun
    exact readAll_ends hreg.mapped hfs hr rfl hrun

end Operations

theorem Tiny.regular : Regular Tiny.fs where
  mapped := ⟨by decide, by decide, by decide⟩
  blocksPerGroup := by decide
  inodesPerGroup := by decide
  table := by decide
  blockBits g hg := by
    obtain rfl : g = 0 := Nat.lt_one_iff.mp hg
    decide +kernel
  inodeBits := by decide
  group n h0 hn := Nat.div_lt_of_lt_mul (by simp only [Tiny.fs] at *; omega)
  record n h0 hn := by
    have hall : ∀ m, m < 17 → Tiny.fs.inodeOffset m + inodeBytes ≤ Tiny.fs.blockSize := by decide +kernel
    exact hall n (Nat.lt_succ_of_le hn)

/-- The root directory of `Tiny.fs` can be scanned for the name `a`. -/
theorem scans_end_iff_tiny : ScansEnd Tiny.fs 2 [97] ↔ SoundRecords Tiny.fs (Tiny.fs.inodeAt 2) [97] :=
  scans_end_iff Tiny.regular (by decide) (by decide) (by decide +kernel) (by decide)

/-- The root directory has a block of zeros. -/
def zeroBlock : Fs := Tiny.fs.setBlock 7 fun _ => 0

/-- **A `rec_len` of 0**: `ext2_lookup` does not end. -/
theorem zero_record_loops : Regular zeroBlock ∧ (zeroBlock.inodeAt 2).isDir = true ∧ ¬ ScansEnd zeroBlock 2 [97] := by
  have hreg : Regular zeroBlock := (steady_setBlock Tiny.fs _ _).regular Tiny.regular
  have hdir : (zeroBlock.inodeAt 2).isDir = true := by decide +kernel
  refine ⟨hreg, hdir, fun h => ?_⟩
  have hr : zeroBlock.Reliable := rfl
  obtain ⟨r, hrun⟩ : ∃ r, ext2Lookup 2 [97] zeroBlock = some r := h.lookup fun _ => false
  rw [(lookup_start hreg (by decide) (by decide) hdir (.refl _)).resolve_right fun h => h.1 hr,
    (quiet_asked zeroBlock).eq hr] at hrun
  obtain ⟨n, hn⟩ := (lookup_rounds hreg.mapped).endsIn (.refl _) hr (c := ()) trivial hrun
  have hself : zeroBlock.scan (zeroBlock.inodeAt 2) (lookupAt zeroBlock.blockSize [97]) 0 = .next 0 := by decide +kernel
  exact hn.proceeds.onward .refl (.single hself)

end Blackmount.Ext2
