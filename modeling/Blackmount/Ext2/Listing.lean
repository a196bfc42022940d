import Blackmount.Ext2.Scans

/-!
# Ext2 — what a directory lists

The live entries of a directory, from an offset on, as its blocks have them (`Fs.Lists`), and what
calls of `ext2_readdir` hand out of them, whichever blocks are refused.

* `readdir_listed`: a call hands out the next live entry, or reports the end, or a block is refused;
  the offset it leaves lists what is left.
* `readAll_listed`: calls until one reports an error hand out a first part of the list, and all of
  it if no block is refused.
-/

namespace Blackmount.Ext2
open Blackmount.Lib

/-- The record at `o`, if it is live. -/
def Fs.liveAt (fs : Fs) (dir : Inode) (o : Nat) : List DirEntry :=
  let d := fs.disk (fs.fileBlock dir (o / fs.blockSize))
  let off := o % fs.blockSize
  if rd32 d off ≠ 0 then [recordAt d off] else []

/-- From `o` on the directory has these live entries, in this order. -/
inductive Fs.Lists (fs : Fs) (dir : Inode) : Nat → List DirEntry → Prop where
  | done {o : Nat} (h : dir.size ≤ o) : Lists fs dir o []
  | next {o o' : Nat} {es : List DirEntry} (h : fs.scan dir (readAt fs.blockSize) o = .next o')
      (t : Lists fs dir o' es) : Lists fs dir o (fs.liveAt dir o ++ es)

section Lists

variable {fs fs' : Fs} {dir : Inode} {o : Nat} {es : List DirEntry}

theorem Alike.liveAt (h : Alike fs fs') (dir : Inode) (o : Nat) : fs'.liveAt dir o = fs.liveAt dir o := by
  simp only [Fs.liveAt, h.fileBlock]
  obtain ⟨f, rfl⟩ := h
  rfl

theorem Alike.lists (h : Alike fs fs') (hl : fs.Lists dir o es) : fs'.Lists dir o es := by
  induction hl with
  | done hend => exact .done hend
  | @next o o' es hscan t ih =>
      have hbs : fs'.blockSize = fs.blockSize := by
        obtain ⟨f, rfl⟩ := h
        rfl
      rw [← h.liveAt]
      exact .next (by rw [h.scan, hbs, hscan]) ih

theorem Fs.Lists.endsIn (h : fs.Lists dir o es) : ∃ n, EndsIn (fs.scan dir (readAt fs.blockSize)) n o := by
  induction h with
  | done hend => exact ⟨0, .ends (fs.scan_end _ _ hend)⟩
  | next hscan _ ih =>
      obtain ⟨n, hn⟩ := ih
      exact ⟨n + 1, .next hscan hn⟩

/-- There is only one list. -/
theorem Fs.Lists.unique {es' : List DirEntry} (h : fs.Lists dir o es) (h' : fs.Lists dir o es') : es = es' := by
  induction h generalizing es' with
  | done hend =>
      cases h' with
      | done _ => rfl
      | next hscan _ =>
          rw [fs.scan_end _ _ hend] at hscan
          cases hscan
  | next hscan _ ih =>
      cases h' with
      | done hend =>
          rw [fs.scan_end _ _ hend] at hscan
          cases hscan
      | next hscan' t' =>
          cases hscan.symm.trans hscan'
          rw [ih t']

theorem Fs.liveAt_name_le {e : DirEntry} (h : e ∈ fs.liveAt dir o) : e.name.length ≤ 255 := by
  simp only [Fs.liveAt] at h
  split at h
  · obtain rfl := List.mem_singleton.mp h
    have := (fs.disk (fs.fileBlock dir (o / fs.blockSize)) (o % fs.blockSize + 6)).toNat_lt
    simp only [recordAt, List.length_map, List.length_range]
    omega
  · cases h

theorem Fs.Lists.name_le (h : fs.Lists dir o es) {e : DirEntry} (he : e ∈ es) : e.name.length ≤ 255 := by
  induction h with
  | done => cases he
  | next _ _ ih =>
      rcases List.mem_append.mp he with he | he
      · exact Fs.liveAt_name_le he
      · exact ih he

/-- How a call of `ext2_readdir` ends, when `es` is listed from its offset on: `o'` is the offset after it. -/
def Handed (fs fs' : Fs) (dir : Inode) (es : List DirEntry) (r : Except Err DirEntry) (o' : Nat) : Prop :=
  (∃ e es', es = e :: es' ∧ r = .ok e ∧ fs.Lists dir o' es') ∨
    (∃ err, r = .error err) ∧ fs.Lists dir o' es ∧ (es = [] ∨ ¬ fs'.Reliable)

/-- **The loop of `ext2_readdir`** hands out the next live entry. -/
theorem readdirLoop_listed (hm : Mapped fs.blockSize) (h : fs.Lists dir o es) {fs' : Fs} (hfs : Alike fs fs') {n k : Nat}
    (hends : EndsIn (fs.scan dir (readAt fs.blockSize)) n o) (hk : n < k) :
    ∃ o' r fs'', readdirLoop dir k o fs' = some ((o', r), fs'') ∧ Quiet fs' fs'' ∧ Handed fs fs' dir es r o' := by
  induction h generalizing n k fs' with
  | @done o hend =>
      obtain ⟨k, rfl⟩ : ∃ k', k = k' + 1 := ⟨k - 1, by omega⟩
      exact ⟨o, .error .notFound, fs', readdirLoop_end (by omega), .refl fs', .inr ⟨⟨_, rfl⟩, .done hend, .inl rfl⟩⟩
  | @next o o₁ es hscan t ih =>
      obtain ⟨k, rfl⟩ : ∃ k', k = k' + 1 := ⟨k - 1, by omega⟩
      have hm' : Mapped fs'.blockSize := by
        obtain ⟨f, rfl⟩ := hfs
        exact hm
      have hbs : fs'.blockSize = fs.blockSize := by
        obtain ⟨f, rfl⟩ := hfs
        rfl
      have hscan' : fs'.scan dir (readAt fs'.blockSize) o = .next o₁ := by rw [hfs.scan, hbs, hscan]
      cases hends with
      | ends hv =>
          rw [hscan] at hv
          cases hv
      | @next m _ _ hv hends =>
          cases hscan.symm.trans hv
          rcases scan_round hm' (readAt fs'.blockSize) (readdirLoop.eq_2 dir o k) rfl with
            ⟨e, fs₁, he, hend, hq, hrun⟩ | ⟨fs₁, hq, hlook, hrun⟩
          · -- a block was refused
            have hrefused : ¬ fs'.Reliable := hend.resolve_right fun hv => by rw [hscan'] at hv; cases hv
            obtain ⟨err, rfl⟩ : ∃ err, e = (o, .error err) := by rcases he with rfl | rfl | rfl <;> exact ⟨_, rfl⟩
            exact ⟨o, _, fs₁, hrun, hq, .inr ⟨⟨err, rfl⟩, .next hscan t, .inr hrefused⟩⟩
          · have hq' := hq
            obtain ⟨c, rfl⟩ := hq
            dsimp only at hrun
            rw [get_bind, read_record] at hrun
            dsimp only at hrun
            rw [hlook, readAt] at hscan'
            split at hscan'
            swap
            · cases hscan'
            next hin =>
              injection hscan' with hnext
              rw [if_pos hin, hnext] at hrun
              have hlive : fs.liveAt dir o = fs'.liveAt dir o := (hfs.liveAt dir o).symm
              rw [hlive, Fs.liveAt]
              split at hrun
              · next hl =>
                  rw [if_pos hl]
                  exact ⟨o₁, _, _, hrun, hq', .inl ⟨_, es, rfl, rfl, t⟩⟩
              · next hl =>
                  rw [if_neg hl]
                  obtain ⟨o', r, fs'', hloop, hq'', hr⟩ := ih (hfs.quiet hq') hends (show m < k by omega)
                  refine ⟨o', r, fs'', hrun.trans hloop, hq'.trans hq'', hr.imp_right fun h => ?_⟩
                  refine ⟨h.1, h.2.1, h.2.2.imp_right fun hn hr => hn ?_⟩
                  exact (Steady.of_quiet hq').reliable hr

/-- **`ext2_readdir`** hands out the next live entry. -/
theorem readdir_listed (hm : Mapped fs.blockSize) {iter : DirIter} (h : fs.Lists iter.dir.inode iter.offset es) {fs' : Fs}
    (hfs : Alike fs fs') : ∃ o' r fs'', ext2Readdir iter fs' = some ((r, { iter with offset := o' }), fs'') ∧
      Quiet fs' fs'' ∧ Handed fs fs' iter.dir.inode es r o' := by
  obtain ⟨n, hn⟩ := h.endsIn
  have hle := hn.le fun o ho => fs.scan_end iter.dir.inode (readAt fs.blockSize) ho
  obtain ⟨o', r, fs'', hrun, hq, hr⟩ := readdirLoop_listed hm h hfs hn (Nat.lt_succ_of_le hle)
  refine ⟨o', r, fs'', ?_, hq, hr⟩
  rw [ext2Readdir, bind_run, hrun]
  rfl

end Lists

/-- **Calls until one reports an error** hand out a first part of the list, and all of it if no block is refused. -/
theorem readAll_listed {fs : Fs} (hm : Mapped fs.blockSize) {es : List DirEntry} {iter : DirIter}
    (h : fs.Lists iter.dir.inode iter.offset es) {fs' : Fs} (hfs : Alike fs fs') :
    ∃ k served left fs'', readAll k iter fs' = some (served, fs'') ∧ es = served ++ left ∧ (fs'.Reliable → left = []) := by
  induction es generalizing iter fs' with
  | nil =>
      obtain ⟨o', r, fs'', hrun, -, hr⟩ := readdir_listed hm h hfs
      rcases hr with ⟨e, es', he, -⟩ | ⟨⟨err, rfl⟩, -⟩
      · cases he
      · refine ⟨1, [], [], fs'', ?_, rfl, fun _ => rfl⟩
        rw [readAll, bind_run, hrun]
        rfl
  | cons e es ih =>
      obtain ⟨o', r, fs₁, hrun, hq, hr⟩ := readdir_listed hm h hfs
      rcases hr with ⟨e', es', he, rfl, hl⟩ | ⟨⟨err, rfl⟩, -, hn⟩
      · obtain ⟨rfl, rfl⟩ := List.cons_eq_cons.mp he
        obtain ⟨k, served, left, fs₂, hrest, hes, hleft⟩ := ih
          (show fs.Lists ({ iter with offset := o' } : DirIter).dir.inode ({ iter with offset := o' } : DirIter).offset es from hl)
          (hfs.quiet hq)
        refine ⟨k + 1, e :: served, left, fs₂, ?_, by rw [hes, List.cons_append], fun hr => hleft ?_⟩
        · rw [readAll, bind_run, hrun, Option.bind_some]
          exact bind_some.mpr ⟨served, fs₂, hrest, rfl⟩
        · exact (Steady.of_quiet hq).reliable hr
      · refine ⟨1, [], e :: es, fs₁, ?_, rfl, fun hr => absurd hr (hn.resolve_left (List.cons_ne_nil _ _))⟩
        rw [readAll, bind_run, hrun]
        rfl

end Blackmount.Ext2
