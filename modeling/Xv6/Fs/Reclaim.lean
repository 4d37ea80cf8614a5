/-
  Orphans: `ireclaim` of `kernel/fs.c`.

  A crash can leave inodes without links on the disk: the last name of a file goes, and the file is
  still open. When the file system comes up, `ireclaim` goes through the inodes, takes a reference
  to each orphan and gives it up again; `iput` then frees the inode. The inode table is not in use
  at that time, so that the reference is the only one.
-/
import Xv6.Fs.Blocks

namespace Xv6.Fs

open Lib Act Function

/-- `dip->type != 0 && dip->nlink == 0` -/
def Store.Orphan (s : Store) (i : ℕ) : Prop := (s.dinode i).type ≠ .free ∧ (s.dinode i).nlink = 0

instance (s : Store) (i : ℕ) : Decidable (s.Orphan i) := inferInstanceAs (Decidable (_ ∧ _))

/-- What `ireclaim` does with an orphan. -/
def reclaim (inum : ℕ) : FsM Unit := do
  let ip ← iget inum
  ilock ip
  iunlock ip
  iput ip

/-- The loop of `ireclaim`, from `inum` on. -/
def ireclaimLoop : ℕ → ℕ → FsM Unit
  | 0, _ => return ()
  | fuel + 1, inum => do
    let s ← get
    (if s.Orphan inum then reclaim inum else return ())
    ireclaimLoop fuel (inum + 1)

def ireclaim (sb : Super) : FsM Unit := ireclaimLoop (sb.ninodes - 1) 1

/-- No entry of the inode table is in use. -/
def Store.Idle (s : Store) : Prop := ∀ e, (s.inode e).ref = 0 ∧ (s.inode e).locked = false

variable {H : ℕ → Prop} {sb : Super} {s s' : Store} {i k n : ℕ} {E : Stop → Prop}

/-- The inode on disk becomes free with its blocks; the table is idle again. -/
theorem reclaim_spec (h : WfOn H sb none s) (hs : s.Idle) (ho : s.Orphan i)
    {Q : Unit → Store → Prop}
    (hQ : ∀ s', WfOn H sb none s' → s'.Idle → s'.block = s.block → (s'.dinode i).type = .free →
      (∀ j, j ≠ i → s'.dinode j = s.dinode j) → Q () s') : wp (reclaim i) Q E s := by
  -- the state in front of `iput`: entry 0 has been read and is unlocked again
  have hput : ∀ s1 :
    Store, s1 = { s with inode := update s.inode 0 ⟨i, 1, true, false, s.dinode i⟩ } →
      wp (iput 0) Q E s1 := by
    intro s1 hs1
    have he1 : s1.inode 0 = ⟨i, 1, true, false, s.dinode i⟩ := by
      rw [hs1]
      exact update_self 0 _ s.inode
    have hne1 : ∀ e, e ≠ 0 → s1.inode e = s.inode e := by
      intro e he
      rw [hs1]
      exact update_of_ne he _ s.inode
    have hl1 : ∀ e, s1.locks e = false := by
      intro e
      unfold Store.locks
      by_cases he : e = 0
      · rw [he, he1]
      · rw [hne1 e he, (hs e).2]
    have hv1 : s1.Valid 0 := by
      unfold Store.Valid
      rw [he1]
      exact ⟨Nat.one_pos, rfl⟩
    have h1 : WfOn H sb none s1 := (h.alone ho.1 he1 (fun e he => by rw [hne1 e he, (hs e).1])
      (by rw [hs1]) (by rw [hs1]) (by rw [hs1])).1
    refine wp_read ?_
    rw [he1, if_pos ⟨rfl, rfl, ho.2⟩]
    refine ifree_wf h1 hv1 (by rw [he1]) (by rw [he1]) (fun hl => ?_) fun s' hw hr => ?_
    · rw [hl1] at hl
      cases hl
    · refine hQ s' hw (fun e => ⟨?_, ?_⟩) (hr.block.trans (by rw [hs1])) hr.free fun j hj => ?_
      · by_cases he : e = 0
        · rw [he, hr.ref]
        · rw [hr.others e he, hne1 e he, (hs e).1]
      · exact (congrFun hr.locks e).trans (hl1 e)
      · rw [hr.disk j hj, hs1]
  refine wp_seq (wp_of_ok (iget_idle fun e => (hs e).1) (wp_seq (wp_of_ok
    (ilock_fresh (i := i) (d := (s.inode 0).d) ?_ ho.1) (wp_seq (wp_read ?_)))))
  · rw [setInode_self, (hs 0).2]
  · dsimp only
    rw [if_neg (by simp)]
    refine wp_modify.mpr (hput _ ?_)
    simp only [Store.setInode, update_self, update_idem]

/-- From `s` to `s'` the orphans among the `n` inodes from `k` on are freed. -/
structure Swept (k n : ℕ) (s s' : Store) : Prop where
  block : s'.block = s.block
  gone : ∀ i, k ≤ i → i < k + n → s.Orphan i → (s'.dinode i).type = .free
  kept : ∀ i, (k ≤ i → i < k + n → ¬s.Orphan i) → s'.dinode i = s.dinode i

theorem Swept.step {s1 : Store} (h : Swept (k + 1) n s1 s') (hb : s1.block = s.block)
    (hgone : s.Orphan k → (s1.dinode k).type = .free)
    (hkept : ¬s.Orphan k → s1.dinode k = s.dinode k)
    (hne : ∀ j, j ≠ k → s1.dinode j = s.dinode j) : Swept k (n + 1) s s' := by
  have hk : s'.dinode k = s1.dinode k := h.kept k fun hlt => absurd hlt (Nat.not_succ_le_self k)
  have horphan : ∀ i, i ≠ k → (s1.Orphan i ↔ s.Orphan i) := by
    intro i hi
    unfold Store.Orphan
    rw [hne i hi]
  refine ⟨h.block.trans hb, fun i h1 h2 ho => ?_, fun i hno => ?_⟩
  · by_cases hi : i = k
    · subst hi
      rw [hk]
      exact hgone ho
    · exact h.gone i (by omega) (by omega) ((horphan i hi).mpr ho)
  · by_cases hi : i = k
    · subst hi
      rw [hk, hkept (hno (Nat.le_refl i) (by omega))]
    · rw [h.kept i fun h1 h2 ho => hno (by omega) (by omega) ((horphan i hi).mp ho), hne i hi]

theorem ireclaimLoop_spec (h : WfOn H sb none s) (hs : s.Idle) :
    wp (ireclaimLoop n k) (fun _ s' => WfOn H sb none s' ∧ s'.Idle ∧ Swept k n s s') E s := by
  induction n generalizing k s with
  | zero => exact wp_pure.mpr ⟨h, hs, rfl, fun i h1 h2 => absurd h2 (by omega), fun _ _ => rfl⟩
  | succ n ih =>
    refine wp_read ?_
    split
    · next ho =>
      refine wp_seq (reclaim_spec h hs ho fun s1 h₁ hs1 hb hfree hne => ?_)
      refine wp_mono (ih h₁ hs1) (fun _ s' ⟨hw, hi, hsw⟩ => ⟨hw, hi, ?_⟩) fun _ => id
      exact hsw.step hb (fun _ => hfree) (fun hno => absurd ho hno) hne
    · next ho =>
      refine wp_seq
        (wp_pure.mpr (wp_mono (ih h hs) (fun _ s' ⟨hw, hi, hsw⟩ => ⟨hw, hi, ?_⟩) fun _ => id))
      exact hsw.step rfl (fun hyes => absurd hyes ho) (fun _ => rfl) fun _ _ => rfl

/-- What `ireclaim` leaves. A block is marked if it was and no orphan referred to it. -/
structure Reclaimed (sb : Super) (s s' : Store) : Prop where
  complete : ∀ i, ¬s'.Orphan i
  bits : ∀ b, b < sb.size →
    (s'.bit b = true ↔ s.bit b = true ∧ ¬∃ i σ, s.Orphan i ∧ b ≠ 0 ∧ s.refers (i, σ) = b)
  kept : ∀ i, ¬s.Orphan i → s'.dinode i = s.dinode i
  block : s'.block = s.block
  unused : ∀ e, (s'.inode e).ref = 0

/-- **Orphan recovery.** On a consistent disk, with any orphans and holes in any file, `ireclaim`
returns; no orphan is left, exactly the blocks of the orphans are free, all other inodes and the
content of all blocks are as before, and no reference is held. -/
theorem ireclaim_frees_orphans (h : WfOn H sb none s) (hs : s.Idle)
    (h0 : (s.dinode 0).type = .free) :
    ∃ s', ireclaim sb s = .ok ((), s') ∧ WfOn H sb none s' ∧ Reclaimed sb s s' := by
  obtain ⟨_, s', hrun, hw, hi, hsw⟩ :=
    wp_returns (ireclaimLoop_spec (n := sb.ninodes - 1) (k := 1) h hs)
  have hin : ∀ i, s.Orphan i → 1 ≤ i ∧ i < 1 + (sb.ninodes - 1) := by
    intro i ho
    have hz : i ≠ 0 := by
      rintro rfl
      exact ho.1 h0
    have hlt : i < sb.ninodes := by
      by_contra hge
      refine ho.1 ?_
      rw [← h.din_eq]
      exact h.beyond i (by omega)
    omega
  have hgone : ∀ i, s.Orphan i → (s'.dinode i).type = .free := fun i ho =>
    hsw.gone i (hin i ho).1 (hin i ho).2 ho
  have hkept : ∀ i, ¬s.Orphan i → s'.dinode i = s.dinode i := fun i hno => hsw.kept i fun _ _ => hno
  refine ⟨s', hrun, hw, fun i ho => ?_, fun b hb => ?_, hkept, hsw.block, fun e => (hi e).1⟩
  · by_cases hos : s.Orphan i
    · exact ho.1 (hgone i hos)
    · unfold Store.Orphan at ho
      rw [hkept i hos] at ho
      exact hos ho
  · have hx := h.exact
    have hx' := hw.exact
    rw [h.own_eq] at hx
    rw [hw.own_eq] at hx'
    rw [hx.sweep (P := fun k => s.Orphan k.1) hx' (fun k hk => if_pos (hgone k.1 hk))
      (fun k hk => ?_) hb,
      Prod.exists]
    unfold Store.refers
    rw [hkept k.1 hk, hsw.block]

/-- The root directory of a small disk, with no link left. -/
def orphanDisk : Store := { rootDisk with dinode := fun i => { rootDisk.dinode i with nlink := 0 } }

theorem orphanDisk_mounted : Mounted rootSuper orphanDisk := by
  have h := rootDisk_mounted
  exact ⟨h.table, ⟨h.owned.marked_iff, h.owned.once⟩, h.data, h.front, h.nmeta, h.fits, h.holes,
    h.small,
    h.beyond⟩

theorem ireclaim_frees_orphans_root : orphanDisk.Orphan 1 ∧
    ∃ s', ireclaim rootSuper orphanDisk = .ok ((), s') ∧ Wf rootSuper none s' ∧
      Reclaimed rootSuper orphanDisk s' :=
  ⟨by decide, ireclaim_frees_orphans orphanDisk_mounted.wf (fun _ => ⟨rfl, rfl⟩) rfl⟩

end Xv6.Fs
