/-
  References to inodes: what `iget`, `idup`, `ilock`, `iput` and `ialloc` do.

  `Holds sb L s` says that the references to entries of the inode table are those of the multiset
  `L`, each with the number of its inode, and with a mark if the inode has been read from the
  disk. A function that takes a reference puts it in front of `L`, one that gives it up takes it
  away; what the others know about their references stays.
-/
import Xv6.Fs.TruncSpec

namespace Xv6.Fs

open Lib Act Function Multiset Store

variable {H : ℕ → Prop} {sb : Super} {s s' : Store} {ip : Ptr} {i : ℕ} {E : Stop → Prop}

/-! ## Clean states -/

theorem WfOn.clean_of_valid (h : WfOn H sb none s) {e : Ptr} (hv : s.Valid e) :
    s.dinode (s.inode e).inum = (s.inode e).d := h.clean e nofun hv

/-- Between the calls the current inodes are those on disk. -/
theorem WfOn.din_eq (h : WfOn H sb none s) : s.din = s.dinode := by
  funext i
  rcases din_cases h.uniq i with ⟨e, hv, rfl, hd⟩ | ⟨_, hd⟩
  · rw [hd, h.clean_of_valid hv]
  · exact hd

/-- The entries agree with the disk. -/
def Store.Clean (s : Store) : Prop :=
  ∀ e, s.Valid e → s.dinode (s.inode e).inum = (s.inode e).d

theorem Store.Clean.din_eq (h : s.Clean) (hu : s.Uniq) : s.din = s.dinode := by
  funext i
  rcases din_cases hu i with ⟨e, hv, rfl, hd⟩ | ⟨_, hd⟩
  · rw [hd, h e hv]
  · exact hd

/-- The inode table changes, and the disk does not. -/
theorem WfOn.retable (h : WfOn H sb none s) (hbit : s'.bit = s.bit) (hblock : s'.block = s.block)
    (hdisk : s'.dinode = s.dinode) (hu : s'.Uniq) (hc : s'.Clean)
    (ht : ∀ e, s'.Valid e → (s'.inode e).d.type ≠ .free) :
    WfOn H sb none s' ∧ s'.node = s.node := by
  have hdin : s'.din = s.din := by rw [hc.din_eq hu, h.din_eq, hdisk]
  have hown : s'.own = s.own := own_congr hdin hblock
  refine ⟨⟨hu, ht, fun e _ => hc e, ?_, h.fits, ?_, ?_, ?_⟩, node_congr hdin hblock⟩
  · rw [hown, hbit]
    exact h.exact
  · rw [hdin, hown]
    exact h.holes
  · rw [hdin]
    exact h.small
  · rw [hdin]
    exact h.beyond

theorem node_isSome_iff : s.node i ≠ none ↔ (s.din i).type ≠ .free := by
  unfold Store.node
  split
  · next h =>
    exact ⟨fun h' => absurd rfl h', fun h' => absurd h h'⟩
  · next h =>
    exact ⟨fun _ => h, nofun⟩

/-- The node of an entry that has been read. -/
theorem node_of_valid {x : Option Ptr} (h : WfOn H sb x s) (hv : s.Valid ip) :
    s.node (s.inode ip).inum =
      some ⟨(s.inode ip).d.type, (s.inode ip).d.major, (s.inode ip).d.minor, (s.inode ip).d.nlink,
        (s.inode ip).d.size, s.byte (s.inode ip).inum⟩ := by
  unfold Store.node
  rw [din_of_valid h.uniq hv, if_neg (h.typed ip hv)]

theorem setInode_self (f : Inode → Inode) : (s.setInode ip f).inode ip = f (s.inode ip) :=
  update_self ..

theorem setInode_ne (f : Inode → Inode) {e : Ptr} (he : e ≠ ip) :
    (s.setInode ip f).inode e = s.inode e :=
  update_of_ne he ..

/-! ## References -/

/-- A reference to an entry of the inode table. -/
structure Ref where
  ptr : Ptr
  inum : ℕ
  /-- The inode has been locked, and so read, since the entry came into use. -/
  loaded : Bool
  deriving DecidableEq

variable {L : Multiset Ref} {d : Dinode}

theorem countP_self {r : Ref} :
    ((r ::ₘ L).countP fun r' => r'.ptr = r.ptr) = (L.countP fun r' => r'.ptr = r.ptr) + 1 :=
  countP_cons_of_pos L rfl

theorem countP_mk {ip : Ptr} {i : ℕ} {b : Bool} :
    ((⟨ip, i, b⟩ ::ₘ L).countP fun r => r.ptr = ip) = (L.countP fun r => r.ptr = ip) + 1 :=
      countP_self

theorem countP_ne {r : Ref} {e : Ptr} (he : e ≠ r.ptr) :
    ((r ::ₘ L).countP fun r' => r'.ptr = e) = L.countP fun r' => r'.ptr = e :=
  countP_cons_of_neg L fun h => he h.symm

/-- The references are those in `L`. -/
structure Holds (sb : Super) (L : Multiset Ref) (s : Store) : Prop where
  wf : Wf sb none s
  count : ∀ e, (s.inode e).ref = L.countP fun r => r.ptr = e
  inum : ∀ r ∈ L, (s.inode r.ptr).inum = r.inum
  loaded : ∀ r ∈ L, r.loaded = true → (s.inode r.ptr).valid = true

namespace Holds

variable {L : Multiset Ref} {r : Ref} {b : Bool}

theorem pos (h : Holds sb L s) (hr : r ∈ L) : 0 < (s.inode r.ptr).ref := by
  rw [h.count]
  exact Multiset.countP_pos.mpr ⟨r, hr, rfl⟩

theorem valid (h : Holds sb L s) (hr : r ∈ L) (hl : r.loaded = true) : s.Valid r.ptr :=
  ⟨h.pos hr, h.loaded r hr hl⟩

theorem node_loaded (h : Holds sb L s) (hr : r ∈ L) (hl : r.loaded = true) :
    s.node r.inum ≠ none := by
  rw [← h.inum r hr, node_of_valid h.wf (h.valid hr hl)]
  exact nofun

/-- Two references to one inode have one entry. -/
theorem ptr_eq (h : Holds sb L s) {r' : Ref} (hr : r ∈ L) (hr' : r' ∈ L) (hi : r.inum = r'.inum) :
    r.ptr = r'.ptr :=
  h.wf.uniq _ _ (h.pos hr) (h.pos hr') (by rw [h.inum r hr, h.inum r' hr', hi])

/-- The table stays, as far as references can tell. -/
theorem same (h : Holds sb L s) (hw : Wf sb none s') (ht : SameTable s s') : Holds sb L s' where
  wf := hw
  count := fun e => by rw [(ht e).2.1, h.count]
  inum := fun r hr => by rw [(ht r.ptr).1, h.inum r hr]
  loaded := fun r hr hl => by rw [(ht r.ptr).2.2.1, h.loaded r hr hl]

/-- A reference that is known to be read may forget it. -/
theorem forget (h : Holds sb (r ::ₘ L) s) : Holds sb (⟨r.ptr, r.inum, false⟩ ::ₘ L) s where
  wf := h.wf
  count := fun e => by
    rw [h.count, countP_cons, countP_cons]
  inum := by
    intro r' hr'
    rcases Multiset.mem_cons.mp hr' with rfl | hr'
    · exact h.inum r (mem_cons_self _ _)
    · exact h.inum r' (mem_cons_of_mem hr')
  loaded := by
    intro r' hr' hl
    rcases Multiset.mem_cons.mp hr' with rfl | hr'
    · cases hl
    · exact h.loaded r' (mem_cons_of_mem hr') hl

/-- One entry changes, and its count with it. -/
theorem setInode {L' : Multiset Ref} {f : Inode → Inode} (h : Holds sb L s)
    (hw : Wf sb none (s.setInode ip f))
    (hne : ∀ e, e ≠ ip → (L'.countP fun r => r.ptr = e) = L.countP fun r => r.ptr = e)
    (heq : (f (s.inode ip)).ref = L'.countP fun r => r.ptr = ip)
    (hin : ∀ r ∈ L', r.ptr = ip → (f (s.inode ip)).inum = r.inum)
    (hload : ∀ r ∈ L', r.ptr = ip → r.loaded = true → (f (s.inode ip)).valid = true)
    (hmem : ∀ r ∈ L', r.ptr ≠ ip → r ∈ L) : Holds sb L' (s.setInode ip f) where
  wf := hw
  count := fun e => by
    by_cases he : e = ip
    · rw [he, setInode_self, heq]
    · rw [setInode_ne f he, h.count, hne e he]
  inum := fun r hr => by
    by_cases he : r.ptr = ip
    · rw [he, setInode_self, hin r hr he]
    · rw [setInode_ne f he, h.inum r (hmem r hr he)]
  loaded := fun r hr hl => by
    by_cases he : r.ptr = ip
    · rw [he, setInode_self, hload r hr he hl]
    · rw [setInode_ne f he, h.loaded r (hmem r hr he) hl]

/-- An entry in use keeps its inode when only count and lock change. -/
theorem wf_setInode {f : Inode → Inode} (hw : WfOn H sb none s) (hpos : 0 < (s.inode ip).ref)
    (hi : (f (s.inode ip)).inum = (s.inode ip).inum)
    (hv : (f (s.inode ip)).valid = (s.inode ip).valid)
    (hd : (f (s.inode ip)).d = (s.inode ip).d) :
    WfOn H sb none (s.setInode ip f) ∧ (s.setInode ip f).node = s.node := by
  -- an entry that is in use now was in use before
  have href : ∀ e, 0 < ((s.setInode ip f).inode e).ref → 0 < (s.inode e).ref := by
    intro e he
    by_cases hip : e = ip
    · rw [hip]
      exact hpos
    · rwa [setInode_ne f hip] at he
  have hinum : ∀ e, ((s.setInode ip f).inode e).inum = (s.inode e).inum := by
    intro e
    by_cases hip : e = ip
    · rw [hip, setInode_self, hi]
    · rw [setInode_ne f hip]
  have hdd : ∀ e, ((s.setInode ip f).inode e).d = (s.inode e).d := by
    intro e
    by_cases hip : e = ip
    · rw [hip, setInode_self, hd]
    · rw [setInode_ne f hip]
  have hvalid : ∀ e, (s.setInode ip f).Valid e → s.Valid e := by
    intro e he
    refine ⟨href e he.1, ?_⟩
    have := he.2
    by_cases hip : e = ip
    · rwa [hip, setInode_self, hv, ← hip] at this
    · rwa [setInode_ne f hip] at this
  refine hw.retable rfl rfl rfl ?_ ?_ ?_
  · intro e e' h1 h2 h3
    rw [hinum, hinum] at h3
    exact hw.uniq e e' (href e h1) (href e' h2) h3
  · intro e he
    rw [hinum, hdd]
    exact hw.clean_of_valid (hvalid e he)
  · intro e he
    rw [hdd]
    exact hw.typed e (hvalid e he)

theorem addRef (h : Holds sb L s) (hr : r ∈ L) :
    Holds sb (r ::ₘ L) (s.setInode r.ptr fun n => { n with ref := n.ref + 1 }) ∧
      (s.setInode r.ptr fun n => { n with ref := n.ref + 1 }).node = s.node := by
  have hw := wf_setInode (f := fun n => { n with ref := n.ref + 1 }) h.wf (h.pos hr) rfl rfl rfl
  refine ⟨h.setInode hw.1 ?_ ?_ ?_ ?_ ?_, hw.2⟩
  · exact fun e he => countP_ne he
  · rw [h.count, countP_self]
  · intro r' hr' he
    rw [← he]
    rcases Multiset.mem_cons.mp hr' with rfl | hr'
    · exact h.inum r' hr
    · exact h.inum r' hr'
  · intro r' hr' he hl
    rw [← he]
    rcases Multiset.mem_cons.mp hr' with rfl | hr'
    · exact h.loaded r' hr hl
    · exact h.loaded r' hr' hl
  · intro r' hr' he
    rcases Multiset.mem_cons.mp hr' with rfl | hr'
    · exact absurd rfl he
    · exact hr'

/-- The inode of the reference has been read. -/
theorem load (h : Holds sb (⟨ip, i, b⟩ ::ₘ L) s) (hv : (s.inode ip).valid = true) :
    Holds sb (⟨ip, i, true⟩ ::ₘ L) s := by
  refine ⟨h.wf, fun e => ?_, fun r hr => ?_, fun r hr hl => ?_⟩
  · rw [h.count, countP_cons, countP_cons]
  · rcases Multiset.mem_cons.mp hr with rfl | hr
    · exact h.inum ⟨ip, i, b⟩ (mem_cons_self _ _)
    · exact h.inum r (mem_cons_of_mem hr)
  · rcases Multiset.mem_cons.mp hr with rfl | hr
    · exact hv
    · exact h.loaded r (mem_cons_of_mem hr) hl

/-- The lock of an entry is taken or released. -/
theorem setLocked (h : Holds sb L s) (hr : r ∈ L) (b : Bool) :
    Holds sb L (s.setInode r.ptr fun n => { n with locked := b }) ∧
      (s.setInode r.ptr fun n => { n with locked := b }).node = s.node := by
  have hw := wf_setInode (f := fun n => { n with locked := b }) h.wf (h.pos hr) rfl rfl rfl
  refine ⟨h.setInode hw.1 (fun _ _ => rfl) (h.count _) (fun r' hr' he => ?_)
    (fun r' hr' he hl => ?_)
    (fun r' hr' _ => hr'), hw.2⟩
  · rw [← he]
    exact h.inum r' hr'
  · rw [← he]
    exact h.loaded r' hr' hl

end Holds

section

variable {L : Multiset Ref} {r : Ref} {b : Bool}

/-! ## Functions -/

/-- Who waits for which sleep-lock can be read off the locks. -/
def Store.locks (s : Store) (e : Ptr) : Bool := (s.inode e).locked

theorem locks_setInode {f : Inode → Inode} {b : Bool} (hf : (f (s.inode ip)).locked = b) :
    (s.setInode ip f).locks = update s.locks ip b := by
  funext e
  by_cases he : e = ip
  · rw [he, update_self, Store.locks, setInode_self, hf]
  · rw [update_of_ne he, Store.locks, setInode_ne f he, Store.locks]

theorem locks_keep {f : Inode → Inode} (hf : (f (s.inode ip)).locked = (s.inode ip).locked) :
    (s.setInode ip f).locks = s.locks :=
  (locks_setInode hf).trans (update_eq_self ip s.locks)

/-- `iget` stops only if every entry is in use. -/
theorem iget_spec (h : Holds sb L s) (hE : (∀ e, ∃ r ∈ L, r.ptr = e) → E .noInodes)
    {Q : Ptr → Store → Prop}
    (hQ : ∀ ip s', Holds sb (⟨ip, i, false⟩ ::ₘ L) s' → s'.node = s.node → s'.locks = s.locks →
      Q ip s') :
    wp (iget i) Q E s := by
  refine wp_read ?_
  split
  · -- the inode has an entry
    rename_i ip hf
    have h1 := List.find?_some hf
    simp only [Bool.and_eq_true, decide_eq_true_eq, beq_iff_eq] at h1
    obtain ⟨hpos, hi⟩ := h1
    rw [h.count] at hpos
    obtain ⟨r, hr, rfl⟩ := Multiset.countP_pos.mp hpos
    have hir : r.inum = i := by rw [← h.inum r hr, hi]
    obtain ⟨h2, h3⟩ := h.addRef hr
    have hk : (s.setInode r.ptr fun n => { n with ref := n.ref + 1 }).locks = s.locks :=
      locks_keep rfl
    exact hQ _ _ (hir ▸ h2.forget) h3 hk
  · rename_i hnone
    split
    · -- an entry that is not in use becomes that of the inode
      rename_i ip hf
      have h0 : (s.inode ip).ref = 0 := by simpa using List.find?_some hf
      have hfree : ∀ r ∈ L, r.ptr ≠ ip := by
        intro r hr he
        have := h.pos hr
        rw [he, h0] at this
        exact Nat.lt_irrefl 0 this
      have hother : ∀ e, 0 < (s.inode e).ref → (s.inode e).inum ≠ i := by
        intro e he hi
        have := List.find?_eq_none.mp hnone e (List.mem_finRange e)
        simp [he, hi] at this
      generalize hfd : (fun n : Inode => { n with inum := i, ref := 1, valid := false }) = f
      have hf1 : (f (s.inode ip)).inum = i := by rw [← hfd]
      have hf2 : (f (s.inode ip)).ref = 1 := by rw [← hfd]
      have hf3 : (f (s.inode ip)).valid = false := by rw [← hfd]
      have hvalid : ∀ e, (s.setInode ip f).Valid e → e ≠ ip ∧ s.Valid e := by
        intro e he
        have hne : e ≠ ip := by
          rintro rfl
          have := he.2
          rw [setInode_self, hf3] at this
          cases this
        refine ⟨hne, ?_⟩
        unfold Store.Valid at he ⊢
        rwa [setInode_ne f hne] at he
      have hw : Wf sb none (s.setInode ip f) ∧ (s.setInode ip f).node = s.node := by
        refine h.wf.retable rfl rfl rfl ?_ ?_ ?_
        · intro e e' h1 h2 h3
          by_cases he : e = ip <;> by_cases he' : e' = ip
          · rw [he, he']
          · rw [he, setInode_self, setInode_ne f he', hf1] at h3
            rw [setInode_ne f he'] at h2
            exact absurd h3.symm (hother e' h2)
          · rw [he', setInode_self, setInode_ne f he, hf1] at h3
            rw [setInode_ne f he] at h1
            exact absurd h3 (hother e h1)
          · rw [setInode_ne f he] at h1 h3
            rw [setInode_ne f he'] at h2 h3
            exact h.wf.uniq e e' h1 h2 h3
        · intro e he
          obtain ⟨hne, hv⟩ := hvalid e he
          rw [setInode_ne f hne]
          exact h.wf.clean_of_valid hv
        · intro e he
          obtain ⟨hne, hv⟩ := hvalid e he
          rw [setInode_ne f hne]
          exact h.wf.typed e hv
      have hlk : (s.setInode ip f).locks = s.locks := locks_keep (by rw [← hfd])
      refine wp_seq (wp_set.mpr (wp_pure.mpr (hQ ip _ (h.setInode hw.1 ?_ ?_ ?_ ?_ ?_) hw.2 hlk)))
      · exact fun e he => countP_ne he
      · rw [hf2, countP_mk, ← h.count, h0]
      · intro r hr he
        rcases Multiset.mem_cons.mp hr with rfl | hr
        · exact hf1
        · exact absurd he (hfree r hr)
      · intro r hr he hl
        rcases Multiset.mem_cons.mp hr with rfl | hr
        · cases hl
        · exact absurd he (hfree r hr)
      · intro r hr he
        rcases Multiset.mem_cons.mp hr with rfl | hr
        · exact absurd rfl he
        · exact hr
    · rename_i hfull
      refine hE fun e => Multiset.countP_pos.mp ?_
      rw [← h.count]
      have := List.find?_eq_none.mp hfull e (List.mem_finRange e)
      exact Nat.pos_of_ne_zero (by simpa using this)

theorem idup_spec (h : Holds sb L s) (hr : r ∈ L) {Q : Ptr → Store → Prop}
    (hQ : ∀ s', Holds sb (r ::ₘ L) s' → s'.node = s.node → s'.locks = s.locks → Q r.ptr s') :
    wp (idup r.ptr) Q E s := by
  obtain ⟨h1, h2⟩ := h.addRef hr
  exact wp_seq (wp_modify.mpr (wp_pure.mpr (hQ _ h1 h2 (locks_keep rfl))))

variable {β : Type} {Q : Unit → Store → Prop} {R : β → Store → Prop} {k : PUnit → FsM β}
  {f : Dinode → Dinode}

/-- `ilock`; the inode is in memory afterwards. -/
theorem ilock_spec (h : Holds sb (⟨ip, i, b⟩ ::ₘ L) s) (hblk : s.locks ip = true → E .blocked)
    (hE : s.node i = none → E .noType)
    (hQ : ∀ s', Holds sb (⟨ip, i, true⟩ ::ₘ L) s' → s'.node = s.node →
      s'.locks = update s.locks ip true → Q () s') : wp (ilock ip) Q E s := by
  have hr : (⟨ip, i, b⟩ : Ref) ∈ ⟨ip, i, b⟩ ::ₘ L := mem_cons_self _ _
  have hpos : 0 < (s.inode ip).ref := h.pos hr
  unfold ilock
  refine wp_read ?_
  rw [if_neg (by omega)]
  refine wp_seq ?_
  unfold acquiresleep
  refine wp_read ?_
  split
  · exact hblk (by assumption)
  refine wp_set.mpr ?_
  obtain ⟨h₁, hn1⟩ := h.setLocked hr true
  have hl1 : (s.setInode ip fun n => { n with locked := true }).locks = update s.locks ip true :=
    locks_setInode rfl
  generalize (s.setInode ip fun n => { n with locked := true }) = s1 at h₁ hn1 hl1
  unfold iload
  refine wp_read ?_
  have hi1 : (s1.inode ip).inum = i := h₁.inum _ hr
  split
  · rename_i hv
    exact wp_pure.mpr (hQ _ (h₁.load hv) hn1 hl1)
  · -- the inode is read from the disk
    rename_i hv
    refine wp_seq (wp_set.mpr ?_)
    have hdin : s1.din i = s1.dinode i := by rw [h₁.wf.din_eq]
    split
    · rename_i hfree
      refine wp_stop.mpr (hE ?_)
      by_contra hne
      rw [← hn1] at hne
      have := node_isSome_iff.mp hne
      rw [hdin, ← hi1] at this
      exact this hfree
    · rename_i hfree
      generalize hfd :
        (fun n : Inode => { n with d := s1.dinode (s1.inode ip).inum, valid := true }) = f
      have hf1 : (f (s1.inode ip)).inum = i := by rw [← hfd]; exact hi1
      have hf2 : (f (s1.inode ip)).ref = (s1.inode ip).ref := by rw [← hfd]
      have hf3 : (f (s1.inode ip)).valid = true := by rw [← hfd]
      have hf4 : (f (s1.inode ip)).d = s1.dinode i := by rw [← hfd, ← hi1]
      have href : ∀ e, ((s1.setInode ip f).inode e).ref = (s1.inode e).ref := by
        intro e
        by_cases he : e = ip
        · rw [he, setInode_self, hf2]
        · rw [setInode_ne f he]
      have hinum : ∀ e, ((s1.setInode ip f).inode e).inum = (s1.inode e).inum := by
        intro e
        by_cases he : e = ip
        · rw [he, setInode_self, hf1, hi1]
        · rw [setInode_ne f he]
      have hvalid : ∀ e, e ≠ ip → (s1.setInode ip f).Valid e → s1.Valid e := by
        intro e he hve
        unfold Store.Valid at hve ⊢
        rwa [setInode_ne f he] at hve
      have hw : Wf sb none (s1.setInode ip f) ∧ (s1.setInode ip f).node = s1.node := by
        refine h₁.wf.retable rfl rfl rfl ?_ ?_ ?_
        · intro e e' h1 h2 h3
          rw [href] at h1 h2
          rw [hinum, hinum] at h3
          exact h₁.wf.uniq e e' h1 h2 h3
        · intro e hve
          by_cases he : e = ip
          · rw [he, setInode_self, hf1, hf4]
            rfl
          · rw [setInode_ne f he]
            exact h₁.wf.clean_of_valid (hvalid e he hve)
        · intro e hve
          by_cases he : e = ip
          · rw [he, setInode_self, hf4, ← hi1]
            exact hfree
          · rw [setInode_ne f he]
            exact h₁.wf.typed e (hvalid e he hve)
      have h₂ : Holds sb (⟨ip, i, b⟩ ::ₘ L) (s1.setInode ip f) := by
        refine h₁.setInode hw.1 (fun _ _ => rfl) (hf2.trans (h₁.count ip)) ?_ (fun _ _ _ _ => hf3)
          fun r hr _ => hr
        intro r hr he
        rw [hf1, ← h₁.inum r hr, he, hi1]
      have hl2 : (s1.setInode ip f).locks = s1.locks := locks_keep (by rw [← hfd])
      refine wp_pure.mpr (hQ _ (h₂.load ?_) (hw.2.trans hn1) (hl2.trans hl1))
      rw [setInode_self, hf3]

theorem iunlock_spec (h : Holds sb (⟨ip, i, b⟩ ::ₘ L) s) (hE : s.locks ip = false → E .iunlock)
    {Q : Unit → Store → Prop} (hQ : ∀ s', Holds sb (⟨ip, i, b⟩ ::ₘ L) s' → s'.node = s.node →
      s'.locks = update s.locks ip false → Q () s') : wp (iunlock ip) Q E s := by
  have hr : (⟨ip, i, b⟩ : Ref) ∈ ⟨ip, i, b⟩ ::ₘ L := mem_cons_self _ _
  refine wp_read ?_
  split
  · rename_i hc
    have hpos : 0 < (s.inode ip).ref := h.pos hr
    have hnot : ¬(s.inode ip).ref < 1 := by omega
    simp only [hnot, decide_false, Bool.or_false, Bool.not_eq_true'] at hc
    exact hE hc
  · obtain ⟨h1, h2⟩ := h.setLocked hr false
    exact wp_modify.mpr (hQ _ h1 h2 (locks_setInode rfl))

/-- The last steps of `iput`: the entry loses a reference. -/
theorem Holds.dropRef (h : Holds sb (⟨ip, i, b⟩ ::ₘ L) s) :
    Holds sb L (s.setInode ip fun n => { n with ref := n.ref - 1 }) ∧
      (s.setInode ip fun n => { n with ref := n.ref - 1 }).node = s.node := by
  have hr : (⟨ip, i, b⟩ : Ref) ∈ ⟨ip, i, b⟩ ::ₘ L := mem_cons_self _ _
  have hw := wf_setInode (f := fun n => { n with ref := n.ref - 1 }) h.wf (h.pos hr) rfl rfl rfl
  refine ⟨h.setInode hw.1 ?_ ?_ ?_ ?_ ?_, hw.2⟩
  · exact fun e he => (countP_ne (r := ⟨ip, i, b⟩) he).symm
  · dsimp only
    have := h.count ip
    rw [countP_mk] at this
    omega
  · intro r' hr' he
    rw [← he]
    exact h.inum r' (mem_cons_of_mem hr')
  · intro r' hr' he hl
    rw [← he]
    exact h.loaded r' (mem_cons_of_mem hr') hl
  · exact fun r' hr' _ => mem_cons_of_mem hr'

/-- An inode without blocks is freed: its last reference goes, and it becomes free on disk. -/
theorem WfOn.release (h : WfOn H sb none s) (hip : 0 < (s.inode ip).ref)
    (hi : (s.inode ip).inum = i)
    (hown : ∀ σ, s.own (i, σ) = 0) {n : Inode} (hn : n.ref = 0)
    (hd : d.type = .free) (hinode : s'.inode = update s.inode ip n)
    (hdisk : s'.dinode = update s.dinode i d) (hbit : s'.bit = s.bit)
    (hblock : s'.block = s.block) :
    WfOn H sb none s' ∧ s'.node = update s.node i none := by
  have hne : ∀ e, e ≠ ip → s'.inode e = s.inode e := by
    intro e he
    rw [hinode, update_of_ne he]
  have hused : ∀ e, 0 < (s'.inode e).ref → e ≠ ip := by
    rintro e he rfl
    rw [hinode, update_self, hn] at he
    exact Nat.lt_irrefl 0 he
  have hvalid : ∀ e, s'.Valid e → e ≠ ip ∧ s.Valid e := by
    intro e he
    have he' := hused e he.1
    refine ⟨he', ?_⟩
    unfold Store.Valid at he ⊢
    rwa [hne e he'] at he
  have huniq : s'.Uniq := by
    intro e e' h1 h2 h3
    have he := hused e h1
    have he' := hused e' h2
    rw [hne e he] at h1 h3
    rw [hne e' he'] at h2 h3
    exact h.uniq e e' h1 h2 h3
  have hclean : s'.Clean := by
    intro e he
    obtain ⟨he', hv⟩ := hvalid e he
    rw [hne e he', hdisk, update_of_ne, h.clean_of_valid hv]
    rw [← hi]
    exact fun hin => he' (h.uniq e ip hv.1 hip hin)
  have hdin : s'.din = update s.din i d := by
    rw [hclean.din_eq huniq, hdisk, h.din_eq]
  have hfree : (s'.din i).type = .free := by rw [hdin, update_self, hd]
  have hother : ∀ j, j ≠ i → s'.din j = s.din j := by
    intro j hj
    rw [hdin, update_of_ne hj]
  have hown' : s'.own = s.own := by
    funext k
    obtain ⟨j, σ⟩ := k
    by_cases hj : j = i
    · rw [hj, hown σ]
      exact if_pos hfree
    · unfold Store.own
      rw [hblock]
      rw [hother j hj]
  have hlive : ∀ j, (s'.din j).type ≠ .free → j ≠ i := by
    rintro j hj rfl
    exact hj hfree
  refine ⟨⟨huniq, ?_, fun e _ => hclean e, ?_, h.fits, ?_, ?_, ?_⟩, ?_⟩
  · intro e he
    obtain ⟨he', hv⟩ := hvalid e he
    rw [hne e he']
    exact h.typed e hv
  · rw [hown', hbit]
    exact h.exact
  · intro j k hH hj hk
    have hji := hlive j hj
    rw [hother j hji] at hj hk
    rw [hown']
    exact h.holes j k hH hj hk
  · intro j hH hj
    have hji := hlive j hj
    rw [hother j hji] at hj ⊢
    exact h.small j hH hj
  · intro j hj
    by_cases hji : j = i
    · rw [hji]
      exact hfree
    · rw [hother j hji]
      exact h.beyond j hj
  · funext j
    by_cases hj : j = i
    · rw [hj, update_self]
      exact if_pos hfree
    · rw [update_of_ne hj]
      exact node_local (hother j hj) (fun σ => by rw [hown']) fun n _ => by rw [hblock]

/-- The inode `i` with the entry `ip` is gone, and all else is as before. -/
structure Released (ip : Ptr) (i : ℕ) (s s' : Store) : Prop where
  ref : (s'.inode ip).ref = 0
  others : ∀ e, e ≠ ip → s'.inode e = s.inode e
  locks : s'.locks = s.locks
  block : s'.block = s.block
  free : (s'.dinode i).type = .free
  disk : ∀ j, j ≠ i → s'.dinode j = s.dinode j
  node : s'.node = update s.node i none

/-- `ifree` and the end of `iput`: blocks, inode and entry are given up. -/
theorem ifree_wf (h : WfOn H sb none s) (hv : s.Valid ip) (hi : (s.inode ip).inum = i)
    (href : (s.inode ip).ref = 1) (hblk : s.locks ip = true → E .blocked)
    (hQ : ∀ s', WfOn H sb none s' → Released ip i s s' → Q () s') :
    wp (do ifree ip; idrop ip) Q E s := by
  refine wp_seq (wp_seq (wp_read ?_))
  split
  · exact hblk (by assumption)
  rename_i hfree
  refine wp_set.mpr ?_
  obtain ⟨h₁, hn1⟩ := Holds.wf_setInode (f := fun n => { n with locked := true }) h hv.1 rfl rfl rfl
  have hs1 : (s.setInode ip fun n => { n with locked := true }).inode =
      update s.inode ip { s.inode ip with locked := true } := rfl
  have hb1 : (s.setInode ip fun n => { n with locked := true }).block = s.block := rfl
  have hd1 : (s.setInode ip fun n => { n with locked := true }).dinode = s.dinode := rfl
  generalize (s.setInode ip fun n => { n with locked := true }) = s1 at h₁ hn1 hs1 hb1 hd1
  have hip1 : s1.inode ip = { s.inode ip with locked := true } := by rw [hs1, update_self]
  have hv1 : s1.Valid ip := by
    unfold Store.Valid
    rw [hip1]
    exact hv
  have hi1 : (s1.inode ip).inum = i := by rw [hip1, hi]
  refine wp_seq (itrunc_spec h₁ hv1 (.inl rfl) fun s2 h₂ ht2 _ hothers2 hown2 hb2 hd2 hn2 => ?_)
  rw [hi1] at hown2 hn2 hd2
  have hi2 : (s2.inode ip).inum = i := by rw [(ht2 ip).1, hi1]
  have href2 : (s2.inode ip).ref = 1 := by rw [(ht2 ip).2.1, hip1, href]
  have hne2 : ∀ e, e ≠ ip → s2.inode e = s.inode e := by
    intro e he
    obtain ⟨h1, h2, h3, h4⟩ := ht2 e
    have h5 := hothers2 e he
    rw [hs1, update_of_ne he] at h1 h2 h3 h4 h5
    exact Inode.ext h1 h2 h3 h4 h5
  refine wp_seq (wp_modify.mpr ?_)
  rw [iupdate_eq]
  refine wp_seq (wp_modify.mpr (wp_seq (wp_modify.mpr ?_)))
  unfold releasesleep
  refine wp_modify.mpr (wp_modify.mpr ?_)
  generalize hn : ({ s2.inode ip with
    d := { (s2.inode ip).d with type := .free }, valid := false, locked := false, ref := 0 } :
      Inode) = n
  have hstate : ∀ s3 : Store, s3 = ⟨s2.bit, s2.block,
      update s2.dinode i { (s2.inode ip).d with type := .free }, update s2.inode ip n⟩ →
        Q () s3 := by
    intro s3 hs3
    have hrel : WfOn H sb none s3 ∧ s3.node = update s2.node i none :=
      h₂.release (n := n) (by omega) hi2 hown2 (by rw [← hn]) rfl (by rw [hs3]) (by rw [hs3])
        (by rw [hs3]) (by rw [hs3])
    obtain ⟨h₃, hn3⟩ := hrel
    rw [hn2, update_idem, hn1] at hn3
    subst hs3
    refine hQ _ h₃ ⟨?_, fun e he => ?_, funext fun e => ?_, hb2.trans hb1, ?_, fun j hj => ?_, hn3⟩
    · dsimp only
      rw [update_self, ← hn]
    · dsimp only
      rw [update_of_ne he, hne2 e he]
    · unfold Store.locks
      dsimp only
      by_cases he : e = ip
      · rw [he, update_self, ← hn]
        exact (Bool.eq_false_iff.mpr hfree).symm
      · rw [update_of_ne he, hne2 e he]
    · dsimp only
      rw [update_self]
    · dsimp only
      rw [update_of_ne hj, hd2 j hj, hd1]
  refine hstate _ ?_
  simp only [Store.setInode, Store.setD, update_self, update_idem, ← hn, hi2, href2]

theorem ifree_spec (h : Holds sb (⟨ip, i, true⟩ ::ₘ L) s) (hL : ∀ r ∈ L, r.ptr ≠ ip)
    (hblk : s.locks ip = true → E .blocked)
    (hQ : ∀ s', Holds sb L s' → s'.node = update s.node i none → s'.locks = s.locks → Q () s') :
    wp (do ifree ip; idrop ip) Q E s := by
  have hr : (⟨ip, i, true⟩ : Ref) ∈ ⟨ip, i, true⟩ ::ₘ L := mem_cons_self _ _
  have href : (s.inode ip).ref = 1 := by
    rw [h.count, countP_mk, Multiset.countP_eq_zero.mpr hL]
  refine ifree_wf h.wf (h.valid hr rfl) (h.inum _ hr) href hblk fun s' hw hs => ?_
  refine hQ s' ⟨hw, fun e => ?_, fun r' hr' => ?_, fun r' hr' hl => ?_⟩ hs.node hs.locks
  · by_cases he : e = ip
    · rw [he, hs.ref, Multiset.countP_eq_zero.mpr hL]
    · rw [hs.others e he, h.count]
      exact countP_ne (r := ⟨ip, i, true⟩) he
  · rw [hs.others _ (hL r' hr')]
    exact h.inum r' (mem_cons_of_mem hr')
  · rw [hs.others _ (hL r' hr')]
    exact h.loaded r' (mem_cons_of_mem hr') hl

/-- `iput`: the reference goes. The inode goes too if it was the last one, the inode had been read
and it has no links. -/
theorem iput_spec (h : Holds sb (⟨ip, i, b⟩ ::ₘ L) s)
    (hblk : s.locks ip = true → (∀ r ∈ L, r.ptr ≠ ip) → E .blocked)
    (hkeep : ∀ s', Holds sb L s' → s'.node = s.node → s'.locks = s.locks →
      (b = true → (∀ r ∈ L, r.ptr ≠ ip) → ∀ n, s.node i = some n → n.nlink ≠ 0) → Q () s')
    (hfree : ∀ s' n, Holds sb L s' → s.node i = some n → n.nlink = 0 → (∀ r ∈ L, r.ptr ≠ ip) →
      s'.node = update s.node i none → s'.locks = s.locks → Q () s') : wp (iput ip) Q E s := by
  have hr : (⟨ip, i, b⟩ : Ref) ∈ ⟨ip, i, b⟩ ::ₘ L := mem_cons_self _ _
  have hi : (s.inode ip).inum = i := h.inum _ hr
  have hcount := h.count ip
  rw [countP_mk] at hcount
  have hnode : ∀ (hv : (s.inode ip).valid = true), ∃ n, s.node i = some n ∧
      n.nlink = (s.inode ip).d.nlink := by
    intro hv
    have := node_of_valid h.wf ⟨h.pos hr, hv⟩
    rw [hi] at this
    exact ⟨_, this, rfl⟩
  refine wp_read ?_
  split
  · rename_i hc
    obtain ⟨h1, hv, hl⟩ := hc
    have hL : ∀ r ∈ L, r.ptr ≠ ip := by
      have : (L.countP fun r => r.ptr = ip) = 0 := by
        omega
      exact Multiset.countP_eq_zero.mp this
    obtain ⟨n, hn, hnl⟩ := hnode hv
    exact ifree_spec (h.load hv) hL (fun hk => hblk hk hL) fun s' h1 h2 h3 =>
      hfree s' n h1 hn (hnl.trans hl) hL h2 h3
  · rename_i hc
    obtain ⟨h1, h2⟩ := h.dropRef
    refine wp_modify.mpr (hkeep _ h1 h2 (locks_keep rfl) fun hb hL n hn hl => hc ⟨?_, ?_, ?_⟩)
    · rw [hcount, Multiset.countP_eq_zero.mpr hL]
    · exact h.loaded _ hr hb
    · obtain ⟨n', hn', hnl⟩ := hnode (h.loaded _ hr hb)
      rw [hn] at hn'
      cases hn'
      rw [← hnl, hl]

/-- The state after a change of the copy in memory and `iupdate`. -/
def Store.putD (s : Store) (ip : Ptr) (f : Dinode → Dinode) : Store :=
  { s.setD ip f with dinode := update s.dinode (s.inode ip).inum (f (s.inode ip).d) }

/-- A change of the copy in memory, and `iupdate`. -/
theorem wp_putD
    (h : wp (k ⟨⟩) R E (s.putD ip f)) :
    wp (modify (fun s => s.setD ip f) >>= fun _ => iupdate ip >>= k) R E s := by
  rw [iupdate_eq]
  refine wp_seq (wp_modify.mpr (wp_seq (wp_modify.mpr ?_)))
  rw [setD_d, ((SameTable.setD ip f) ip).1]
  exact h

theorem sameTable_putD (f : Dinode → Dinode) : SameTable s (s.putD ip f) := SameTable.setD ip f

theorem din_putD (hu : s.Uniq) (hv : s.Valid ip) (f : Dinode → Dinode) :
    (s.putD ip f).din = update s.din (s.inode ip).inum (f (s.inode ip).d) := by
  have hself : ((s.putD ip f).inode ip).d = f (s.inode ip).d := setD_d f
  rw [← hself]
  exact din_update hu (sameTable_putD f) hv (fun e he => setD_d_ne f he) fun j hj =>
    update_of_ne hj ..

/-- The slots stay where type and addresses do. -/
theorem own_putD (hu : s.Uniq) (hv : s.Valid ip)
    (hft : (f (s.inode ip).d).type = (s.inode ip).d.type)
    (hfa : (f (s.inode ip).d).addrs = (s.inode ip).d.addrs) : (s.putD ip f).own = s.own := by
  have hfield : ∀ j, ((s.putD ip f).din j).type = (s.din j).type ∧
      ((s.putD ip f).din j).addrs = (s.din j).addrs := by
    intro j
    rw [din_putD hu hv]
    by_cases hj : j = (s.inode ip).inum
    · rw [hj, update_self, din_of_valid hu hv]
      exact ⟨hft, hfa⟩
    · rw [update_of_ne hj]
      exact ⟨rfl, rfl⟩
  funext k
  unfold Store.own
  rw [(hfield k.1).1]
  split
  · rfl
  · exact congrFun (Dinode.addr_congr (hfield k.1).2 fun _ => rfl) k.2

/-- The copy in memory is changed, except for its blocks, and written to disk. -/
theorem WfOn.putD {x : Option Ptr} (h : WfOn H sb x s) (hv : s.Valid ip)
    (hx : x = none ∨ x = some ip)
    (hft : (f (s.inode ip).d).type = (s.inode ip).d.type)
    (hfa : (f (s.inode ip).d).addrs = (s.inode ip).d.addrs)
    (hfs : (f (s.inode ip).d).size ≤ maxFile * bSize)
    (hfh : ∀ n, n * bSize < (f (s.inode ip).d).size → s.own ((s.inode ip).inum, .ofBlock n) ≠ 0) :
    WfOn H sb none (s.putD ip f) ∧ SameTable s (s.putD ip f) ∧ (s.putD ip f).own = s.own ∧
      (s.putD ip f).node = update s.node (s.inode ip).inum ((s.node (s.inode ip).inum).map fun n =>
        { n with major := (f (s.inode ip).d).major, minor := (f (s.inode ip).d).minor,
                 nlink := (f (s.inode ip).d).nlink, size := (f (s.inode ip).d).size }) := by
  have ht : SameTable s (s.putD ip f) := sameTable_putD f
  have hdin := din_putD h.uniq hv f
  have hown := own_putD h.uniq hv hft hfa
  generalize hs' : s.putD ip f = s' at ht hdin hown
  have hdisk : s'.dinode = update s.dinode (s.inode ip).inum (f (s.inode ip).d) := by
    rw [← hs']
    rfl
  have hinode : s'.inode = (s.setD ip f).inode := by
    rw [← hs']
    rfl
  have hbit : s'.bit = s.bit := by
    rw [← hs']
    rfl
  have hblock : s'.block = s.block := by
    rw [← hs']
    rfl
  have hself : (s'.inode ip).d = f (s.inode ip).d := by rw [hinode, setD_d]
  have hother : ∀ e, e ≠ ip → (s'.inode e).d = (s.inode e).d := by
    intro e he
    rw [hinode, setD_d_ne f he]
  have hdi : s.din (s.inode ip).inum = (s.inode ip).d := din_of_valid h.uniq hv
  have hdj : ∀ j, j ≠ (s.inode ip).inum → s'.din j = s.din j := by
    intro j hj
    rw [hdin, update_of_ne hj]
  have hdself : s'.din (s.inode ip).inum = f (s.inode ip).d := by rw [hdin, update_self]
  refine ⟨⟨ht.uniq h.uniq, ?_, ?_, ?_, h.fits, ?_, ?_, ?_⟩, ht, hown, ?_⟩
  · intro e he
    have he' := (ht.valid e).mp he
    by_cases hip : e = ip
    · rw [hip, hself, hft]
      exact h.typed ip hv
    · rw [hother e hip]
      exact h.typed e he'
  · intro e _ he
    have he' := (ht.valid e).mp he
    rw [(ht e).1, hdisk]
    by_cases hip : e = ip
    · rw [hip, update_self, hself]
    · rw [update_of_ne fun hin => hip (h.uniq e ip he'.1 hv.1 hin), hother e hip]
      refine h.clean e ?_ he'
      rcases hx with rfl | rfl
      · exact nofun
      · exact fun h' => hip (Option.some.inj h').symm
  · rw [hown, hbit]
    exact h.exact
  · intro j n hH hj hn
    rw [hown]
    by_cases hji : j = (s.inode ip).inum
    · rw [hji, hdself] at hn
      rw [hji]
      exact hfh n hn
    · rw [hdj j hji] at hj hn
      exact h.holes j n hH hj hn
  · intro j hH hj
    by_cases hji : j = (s.inode ip).inum
    · rw [hji, hdself]
      exact hfs
    · rw [hdj j hji] at hj ⊢
      exact h.small j hH hj
  · intro j hj
    by_cases hji : j = (s.inode ip).inum
    · rw [hji, hdself, hft, ← hdi, ← hji]
      exact h.beyond j hj
    · rw [hdj j hji]
      exact h.beyond j hj
  · have hbyte : s'.byte = s.byte := byte_congr hown hblock
    funext j
    by_cases hj : j = (s.inode ip).inum
    · rw [hj, update_self]
      unfold Store.node
      rw [hdself, hbyte, hdi, hft, if_neg (h.typed ip hv), if_neg (h.typed ip hv)]
      rfl
    · rw [update_of_ne hj]
      exact node_local (hdj j hj) (fun σ => by rw [hown]) fun n _ => by rw [hblock]

/-- Fields that say nothing about the content are changed, in memory and on disk. -/
theorem setMeta_spec
    (hf : ∀ d, (f d).type = d.type ∧ (f d).size = d.size ∧ (f d).addrs = d.addrs)
    (h : Holds sb (⟨ip, i, true⟩ ::ₘ L) s) (hR : ∀ s', Holds sb (⟨ip, i, true⟩ ::ₘ L) s' →
      s'.node = update s.node i ((s.node i).map fun n =>
        { n with major := (f (s.inode ip).d).major, minor := (f (s.inode ip).d).minor,
                 nlink := (f (s.inode ip).d).nlink }) → wp (k ⟨⟩) R E s') :
    wp (modify (fun s => s.setD ip f) >>= fun _ => iupdate ip >>= k) R E s := by
  have hr : (⟨ip, i, true⟩ : Ref) ∈ ⟨ip, i, true⟩ ::ₘ L := mem_cons_self _ _
  have hi : (s.inode ip).inum = i := h.inum _ hr
  have hv : s.Valid ip := h.valid hr rfl
  obtain ⟨hft, hfs, hfa⟩ := hf (s.inode ip).d
  have hdi := din_of_valid h.wf.uniq hv
  have hlive : (s.din (s.inode ip).inum).type ≠ .free := by
    rw [hdi]
    exact h.wf.typed ip hv
  obtain ⟨hw, ht, _, hn⟩ := h.wf.putD hv (.inl rfl) (f := f) hft hfa
    (by rw [hfs, ← hdi]; exact h.wf.small _ trivial hlive)
    (fun n hn => h.wf.holes _ n trivial hlive (by rw [hdi, ← hfs]; exact hn))
  refine wp_putD (hR _ (h.same hw ht) ?_)
  have hnode := node_of_valid h.wf hv
  rw [hn, ← hi, hnode, hfs]
  rfl

/-- `ip->nlink = g(ip->nlink); iupdate(ip)` -/
theorem relink_spec {g : BitVec 16 → BitVec 16}
    (h : Holds sb (⟨ip, i, true⟩ ::ₘ L) s) (hR : ∀ s', Holds sb (⟨ip, i, true⟩ ::ₘ L) s' →
      s'.node = update s.node i ((s.node i).map fun n => { n with nlink := g n.nlink }) →
      wp (k ⟨⟩) R E s') :
    wp (modify (fun s => s.setD ip fun d => { d with nlink := g d.nlink }) >>= fun _ =>
      iupdate ip >>= k) R E s := by
  have hr : (⟨ip, i, true⟩ : Ref) ∈ ⟨ip, i, true⟩ ::ₘ L := mem_cons_self _ _
  have hn := node_of_valid h.wf (h.valid hr rfl)
  rw [h.inum _ hr] at hn
  refine setMeta_spec (fun d => ⟨rfl, rfl, rfl⟩) h fun s' h' hn' => hR s' h' ?_
  rw [hn', hn]
  rfl

/-- The fields of a new inode. -/
theorem newinode_spec {ma mi nl : BitVec 16}
    (h : Holds sb (⟨ip, i, true⟩ ::ₘ L) s) (hR : ∀ s', Holds sb (⟨ip, i, true⟩ ::ₘ L) s' →
      s'.node = update s.node i
        ((s.node i).map fun n => { n with major := ma, minor := mi, nlink := nl }) →
      wp (k ⟨⟩) R E s') :
    wp (modify (fun s => s.setD ip fun d => { d with major := ma, minor := mi, nlink := nl }) >>=
      fun _ =>
      iupdate ip >>= k) R E s :=
  setMeta_spec (fun _ => ⟨rfl, rfl, rfl⟩) h hR

/-! ## New inodes -/

def Node.fresh (type : IType) : Node := ⟨type, 0, 0, 0, 0, fun _ => 0⟩

/-- A free inode is written to the disk without blocks. -/
theorem WfOn.alloc (h : WfOn H sb none s) (ht : d.type ≠ .free) (hsize : d.size = 0)
    (haddr : ∀ block σ, d.addr block σ = 0) (hi : i < sb.ninodes) (hfree : s.node i = none) :
    WfOn H sb none { s with dinode := update s.dinode i d } ∧
      ({ s with dinode := update s.dinode i d } : Store).node =
        update s.node i (some ⟨d.type, d.major, d.minor, d.nlink, 0, fun _ => 0⟩) := by
  have hdf : (s.din i).type = .free := by
    by_contra hne
    exact node_isSome_iff.mpr hne hfree
  generalize hs' : ({ s with dinode := update s.dinode i d } : Store) = s'
  have hinode : s'.inode = s.inode := by rw [← hs']
  have hdisk : s'.dinode = update s.dinode i d := by rw [← hs']
  have hbit : s'.bit = s.bit := by rw [← hs']
  have hblock : s'.block = s.block := by rw [← hs']
  have htab : SameTable s s' := .of_inode hinode
  have huniq := htab.uniq h.uniq
  -- the copies in memory are of other inodes
  have hne : ∀ e, s.Valid e → (s.inode e).inum ≠ i := by
    intro e he hin
    have := h.typed e he
    rw [← din_of_valid h.uniq he, hin] at this
    exact this hdf
  have hclean : s'.Clean := by
    intro e he
    have he' := (htab.valid e).mp he
    rw [hinode, hdisk, update_of_ne (hne e he'), h.clean_of_valid he']
  have hdin : s'.din = update s.din i d := by
    rw [hclean.din_eq huniq, hdisk, h.din_eq]
  have hself : s'.din i = d := by rw [hdin, update_self]
  have hother : ∀ j, j ≠ i → s'.din j = s.din j := by
    intro j hj
    rw [hdin, update_of_ne hj]
  have hzero : ∀ σ, s'.own (i, σ) = 0 := by
    intro σ
    unfold Store.own
    rw [hself, haddr, ite_self]
  have hown : s'.own = s.own := by
    funext k
    obtain ⟨j, σ⟩ := k
    by_cases hj : j = i
    · rw [hj, hzero]
      exact (if_pos hdf).symm
    · unfold Store.own
      dsimp only
      rw [hblock, hother j hj]
  refine ⟨⟨huniq, ?_, fun e _ => hclean e, ?_, h.fits, ?_, ?_, ?_⟩, ?_⟩
  · intro e he
    rw [hinode]
    exact h.typed e ((htab.valid e).mp he)
  · rw [hown, hbit]
    exact h.exact
  · intro j n hH hj hn
    by_cases hji : j = i
    · rw [hji, hself, hsize] at hn
      exact absurd hn (Nat.not_lt_zero _)
    · rw [hother j hji] at hj hn
      rw [hown]
      exact h.holes j n hH hj hn
  · intro j hH hj
    by_cases hji : j = i
    · rw [hji, hself, hsize]
      exact Nat.zero_le _
    · rw [hother j hji] at hj ⊢
      exact h.small j hH hj
  · intro j hj
    rw [hother j (by omega)]
    exact h.beyond j hj
  · funext j
    by_cases hj : j = i
    · have hbyte : s'.byte i = fun _ => 0 := by
        funext o
        unfold Store.byte
        rw [hzero, if_pos rfl]
      rw [hj, update_self]
      unfold Store.node
      rw [hself, hbyte, hsize]
      exact if_neg ht
    · rw [update_of_ne hj]
      exact node_local (hother j hj) (fun σ => by rw [hown]) fun n _ => by rw [hblock]

theorem Holds.alloc (h : Holds sb L s) {type : IType} (ht : type ≠ .free) (hi : i < sb.ninodes)
    (hfree : s.node i = none) : Holds sb L { s with dinode := update s.dinode i (.fresh type) } ∧
      ({ s with dinode := update s.dinode i (.fresh type) } : Store).node =
        update s.node i (some (.fresh type)) := by
  obtain ⟨hw, hn⟩ := h.wf.alloc (d := .fresh type) ht rfl (fun block => Dinode.addr_fresh type)
    hi hfree
  exact ⟨h.same hw (.of_inode rfl), hn⟩

theorem ialloc_spec (h : Holds sb L s) {type : IType} (ht : type ≠ .free) (hE : E .noInodes)
    {Q : Option Ptr → Store → Prop} (hnone : Q none s)
    (hsome : ∀ ip i s', 1 ≤ i → i < sb.ninodes → s.node i = none →
      Holds sb (⟨ip, i, false⟩ ::ₘ L) s' →
      s'.node = update s.node i (some (.fresh type)) → Q (some ip) s') :
        wp (ialloc sb type) Q E s := by
  refine wp_read ?_
  split
  · rename_i i hf
    have h1 : (s.dinode i).type = .free := by simpa using List.find?_some hf
    have h2 := List.mem_range'_1.mp (List.mem_of_find?_eq_some hf)
    have hi : i < sb.ninodes := by omega
    have hnode : s.node i = none := by
      unfold Store.node
      rw [h.wf.din_eq]
      exact if_pos h1
    obtain ⟨h₁, hn1⟩ := h.alloc ht hi hnode
    refine wp_seq
      (wp_set.mpr (wp_seq (iget_spec h₁ (fun _ => hE) fun ip s' h' hn' _ => wp_pure.mpr ?_)))
    exact hsome ip i s' h2.1 hi hnode h' (hn'.trans hn1)
  · exact wp_pure.mpr hnone

end

/-! ## A table without references -/

theorem iget_idle (hs : ∀ e, (s.inode e).ref = 0) :
    iget i s = .ok (0, s.setInode 0 fun n => { n with inum := i, ref := 1, valid := false }) := by
  refine wp_eq_ok (wp_read ?_)
  have h1 : ((List.finRange nInode).find? fun e => 0 < (s.inode e).ref && (s.inode e).inum == i) =
      none := by
    refine List.find?_eq_none.mpr fun e _ => ?_
    rw [hs]
    simp
  have h2 : (fun e => (s.inode e).ref == 0) = fun _ => true := funext fun e => by rw [hs]; rfl
  rw [h1, h2]
  exact wp_seq (wp_set.mpr (wp_pure.mpr ⟨rfl, rfl⟩))

/-- `ilock` of an entry that nobody has read yet. -/
theorem ilock_fresh (he : s.inode ip = ⟨i, 1, false, false, d⟩)
    (ht : (s.dinode i).type ≠ .free) :
    ilock ip s = .ok
      ((), { s with inode := update s.inode ip ⟨i, 1, true, true, s.dinode i⟩ }) := by
  have h1 : (s.setInode ip fun n => { n with locked := true }).inode ip =
      ⟨i, 1, false, true, d⟩ := by
    unfold Store.setInode
    dsimp only
    rw [update_self, he]
  refine wp_eq_ok (wp_read ?_)
  rw [he, if_neg (Nat.lt_irrefl 1)]
  refine wp_seq (wp_read ?_)
  rw [he, if_neg (Bool.false_ne_true)]
  refine wp_set.mpr (wp_read ?_)
  rw [h1, if_neg (Bool.false_ne_true)]
  refine wp_seq (wp_set.mpr ?_)
  rw [if_neg]
  · refine wp_pure.mpr ⟨rfl, ?_⟩
    unfold Store.setInode
    dsimp only
    rw [update_self, update_idem, he]
  · exact ht

/-- One entry has a reference, and its inode has been read. -/
theorem WfOn.alone {l : Bool} (h : WfOn H sb none s) (ht : (s.dinode i).type ≠ .free)
    (hi : s'.inode ip = ⟨i, 1, true, l, s.dinode i⟩) (hz : ∀ e, e ≠ ip → (s'.inode e).ref = 0)
    (hbit : s'.bit = s.bit) (hblock : s'.block = s.block) (hdisk : s'.dinode = s.dinode) :
    WfOn H sb none s' ∧ s'.node = s.node := by
  have hip : ∀ e, 0 < (s'.inode e).ref → e = ip := by
    intro e he
    by_contra hne
    rw [hz e hne] at he
    exact Nat.lt_irrefl 0 he
  refine h.retable hbit hblock hdisk (fun e e' he he' _ => ?_) (fun e he => ?_) fun e he => ?_
  · rw [hip e he, hip e' he']
  · rw [hip e he.1, hi, hdisk]
  · rw [hip e he.1, hi]
    exact ht

end Xv6.Fs
