/-
  `iappend` does to the image what `writei` does to the disk.

  A state of `mkfs` is seen as a state of the kernel: the free map marks the blocks below
  `freeblock`, and the inode in the local variable of `iappend` is an entry of the inode table
  (`Mk.view`). The two programs hand out blocks in the same order, since the first free block is
  the one that the counter names, and a block that `mkfs` has not used is zero like one from
  `balloc`. So a call of `iappend` that returns is a call of `writei` at the end of the file.
-/
import Xv6.Fs.Bytes
import Xv6.Mkfs.Model

namespace Xv6.Mkfs

open Fs Lib Act Function

abbrev sup : Super := superBlock.toSuper

theorem nmeta_eq : nmeta = 47 := rfl

/-- A table without entries in use. -/
def emptyTable : Ptr → Inode := fun _ => ⟨0, 0, false, false, .fresh .free⟩

/-- A table with an entry for inode `i`, locked. -/
def tableOf (i : ℕ) (d : Dinode) : Ptr → Inode := update emptyTable 0 ⟨i, 1, true, true, d⟩

/-- What the kernel would see, with inode table `t`. -/
def Mk.view (m : Mk) (t : Ptr → Inode) : Store where
  bit := fun b => decide (b < m.freeblock)
  block := fun b => if nmeta ≤ b then m.img b else fun _ => 0
  dinode := m.img.dinode superBlock
  inode := t

/-- Blocks that are not in use are zero. -/
structure Mk.Fine (m : Mk) : Prop where
  super : m.img 1 = superBlock.block
  zero : ∀ b, m.freeblock ≤ b → m.img b = fun _ => 0
  lo : nmeta ≤ m.freeblock
  hi : m.freeblock ≤ fsSize

variable {m m' : Mk} {t : Ptr → Inode} {i : ℕ} {d : Dinode} {E : Abort → Prop}

/-! ## Writing to the image -/

theorem iblock_lt_bmapstart (hi : i < nInodes) : superBlock.iblock i < superBlock.bmapstart := by
  have h : superBlock.iblock i = i / 16 + 33 := rfl
  have h' : nInodes = 200 := rfl
  have h'' : superBlock.bmapstart = 46 := rfl
  omega

theorem iblock_lt (hi : i < nInodes) : superBlock.iblock i < nmeta :=
  Nat.lt_of_lt_of_le (iblock_lt_bmapstart hi) (by decide)

theorem one_lt_iblock (i : ℕ) : 1 < superBlock.iblock i :=
  Nat.lt_of_lt_of_le (by decide) (Nat.le_add_left 33 (i / 16))

theorem dinode_of_lt (img : Image) (hi : i < nInodes) :
    img.dinode superBlock i = getDinode (img (superBlock.iblock i)) (i % ipb) := if_pos hi

theorem dinode_of_le (img : Image) (hi : nInodes ≤ i) : img.dinode superBlock i = .fresh .free :=
  if_neg (Nat.not_lt.mpr hi)

theorem packable_dinode (img : Image) (i : ℕ) : Packable (img.dinode superBlock i) := by
  by_cases hi : i < nInodes
  · rw [dinode_of_lt img hi]
    exact packable_getDinode ..
  · rw [dinode_of_le img (Nat.le_of_not_lt hi)]
    exact ⟨by decide, fun _ => Nat.two_pow_pos 32, fun _ _ => rfl⟩

variable {b : ℕ} {Q : Unit → Mk → Prop}

/-- The free map and the data blocks hold no inodes. -/
theorem dinode_data (img : Image) (hb : superBlock.bmapstart ≤ b) (buf : Block) :
    Image.dinode (update img b buf) superBlock = img.dinode superBlock := by
  funext i
  by_cases hi : i < nInodes
  · have hne : superBlock.iblock i ≠ b :=
      Nat.ne_of_lt (Nat.lt_of_lt_of_le (iblock_lt_bmapstart hi) hb)
    rw [dinode_of_lt _ hi, dinode_of_lt _ hi, update_of_ne hne]
  · rw [dinode_of_le _ (Nat.le_of_not_lt hi), dinode_of_le _ (Nat.le_of_not_lt hi)]

/-- `winode` changes one inode. -/
theorem dinode_winode (img : Image) (hi : i < nInodes) (hp : Packable d) :
    Image.dinode (update img (superBlock.iblock i)
      (putDinode (img (superBlock.iblock i)) (i % ipb) d)) superBlock =
        update (img.dinode superBlock) i d := by
  funext j
  by_cases hj : j < nInodes
  · rw [dinode_of_lt _ hj]
    by_cases hb : superBlock.iblock j = superBlock.iblock i
    · rw [hb, update_self]
      by_cases hji : j = i
      · rw [hji, update_self, getDinode_putDinode hp]
      · have hmod : j % ipb ≠ i % ipb := by
          intro hmod
          have h1 : j / ipb = i / ipb := Nat.add_right_cancel hb
          have h2 := Nat.div_add_mod j ipb
          have h3 := Nat.div_add_mod i ipb
          rw [h1, hmod, h3] at h2
          exact hji h2.symm
        rw [getDinode_putDinode_ne hmod, update_of_ne hji, dinode_of_lt _ hj, hb]
    · have hji : j ≠ i := fun h => hb (h ▸ rfl)
      rw [update_of_ne hb, update_of_ne hji, dinode_of_lt _ hj]
  · have hji : j ≠ i := fun h => hj (h ▸ hi)
    rw [dinode_of_le _ (Nat.le_of_not_lt hj), update_of_ne hji,
      dinode_of_le _ (Nat.le_of_not_lt hj)]

/-- The image after `wsect`. -/
def Mk.put (m : Mk) (b : ℕ) (buf : Block) : Mk := { m with img := update m.img b buf }

theorem view_put (hb : nmeta ≤ b) (f : Block → Block) :
    (m.put b (f (m.img b))).view t = (m.view t).setBlock b f := by
  have hblock : (fun c => if nmeta ≤ c then update m.img b (f (m.img b)) c else fun _ => 0) =
      update (fun c => if nmeta ≤ c then m.img c else fun _ => 0) b
        (f (if nmeta ≤ b then m.img b else fun _ => 0)) := by
    funext c
    by_cases hc : c = b
    · rw [hc, update_self, update_self, if_pos hb, if_pos hb]
    · rw [update_of_ne hc, update_of_ne hc]
  unfold Mk.view Mk.put Store.setBlock
  rw [hblock, dinode_data m.img (Nat.le_trans (by decide) hb)]

/-- The image after `winode`. -/
def Mk.putInode (m : Mk) (i : ℕ) (d : Dinode) : Mk :=
  m.put (superBlock.iblock i) (putDinode (m.img (superBlock.iblock i)) (i % ipb) d)

theorem view_putInode (hi : i < nInodes) (hp : Packable d) : (m.putInode i d).view t =
      { m.view t with dinode := update (m.img.dinode superBlock) i d } := by
  have hblock : (fun c => if nmeta ≤ c then update m.img (superBlock.iblock i)
      (putDinode (m.img (superBlock.iblock i)) (i % ipb) d) c else fun _ => 0) =
      fun c => if nmeta ≤ c then m.img c else fun _ => 0 := by
    funext c
    by_cases hc : nmeta ≤ c
    · have := iblock_lt hi
      rw [if_pos hc, if_pos hc, update_of_ne (by omega)]
    · rw [if_neg hc, if_neg hc]
  unfold Mk.view Mk.putInode Mk.put
  rw [hblock, dinode_winode m.img hi hp]

theorem Mk.Fine.put (h : m.Fine) (h1 : 1 < b) (hb : b < m.freeblock) (buf : Block) :
    (m.put b buf).Fine where
  super := (update_of_ne (by omega) ..).trans h.super
  zero := fun c hc => (update_of_ne (by change m.freeblock ≤ c at hc; omega) ..).trans (h.zero c hc)
  lo := h.lo
  hi := h.hi

theorem Mk.Fine.putInode (h : m.Fine) (hi : i < nInodes) (d : Dinode) : (m.putInode i d).Fine := by
  have hb := iblock_lt hi
  have hlo := h.lo
  exact h.put (one_lt_iblock i) (by omega) _

/-! ## Functions -/

theorem wsect_spec {buf : Block} (hQ : Q () (m.put b buf)) :
    wp (wsect b buf) Q E m := hQ

theorem rsect_spec {Q : Block → Mk → Prop} (hQ : b < fsSize → Q (m.img b) m)
    (hE : fsSize ≤ b → ∀ e, E e) : wp (rsect b) Q E m := by
  refine wp_read ?_
  split
  · next hb =>
    exact wp_pure.mpr (hQ hb)
  · next hb =>
    exact wp_stop.mpr (hE (Nat.le_of_not_lt hb) _)

theorem rinode_spec (hi : i < nInodes) {Q : Dinode → Mk → Prop}
    (hQ : Q (m.img.dinode superBlock i) m) :
    wp (rinode i) Q E m := by
  have hb := iblock_lt hi
  refine wp_seq (rsect_spec (fun _ => wp_pure.mpr ?_) fun hle => ?_)
  · rw [← dinode_of_lt m.img hi]
    exact hQ
  · unfold fsSize at hle
    rw [nmeta_eq] at hb
    omega

theorem winode_spec (hi : i < nInodes) (hQ : Q () (m.putInode i d)) :
    wp (winode i d) Q E m := by
  have hb := iblock_lt hi
  refine wp_seq (rsect_spec (fun _ => wsect_spec hQ) fun hle => ?_)
  unfold fsSize at hle
  rw [nmeta_eq] at hb
  omega

theorem balloc_first {sb : Super} {s : Store}
    (hfind : ((List.range sb.size).find? fun c => !s.bit c) = some b) :
    Fs.balloc sb s = .ok (b, s.claim b) := by
  refine wp_eq_ok ?_
  refine wp_read ?_
  rw [hfind]
  exact wp_seq (wp_set.mpr (wp_pure.mpr ⟨rfl, rfl⟩))

/-- The counter names the first free block. -/
theorem balloc_view (hm : m.Fine) (hlt : m.freeblock < fsSize) : Fs.balloc sup (m.view t) =
      .ok (m.freeblock, ({ m with freeblock := m.freeblock + 1 } : Mk).view t) := by
  have hfind : ((List.range sup.size).find? fun b => !(m.view t).bit b) = some m.freeblock := by
    rw [List.find?_range_eq_some]
    refine ⟨?_, List.mem_range.mpr hlt, fun b hb => ?_⟩
    · simp [Mk.view]
    · simpa [Mk.view] using hb
  have hbit : update (fun b => decide (b < m.freeblock)) m.freeblock true =
      fun b => decide (b < m.freeblock + 1) := by
    funext b
    by_cases hb : b = m.freeblock
    · rw [hb, update_self]
      simp
    · rw [update_of_ne hb]
      simp only [decide_eq_decide]
      omega
  have hblock : update (m.view t).block m.freeblock (fun _ => 0) = (m.view t).block := by
    refine update_eq_self_iff.mpr ?_
    exact ((if_pos hm.lo).trans (hm.zero _ (Nat.le_refl _))).symm
  rw [balloc_first hfind]
  unfold Store.claim
  rw [hblock]
  exact congrArg (fun f => Except.ok (m.freeblock, ({ m.view t with bit := f } : Store))) hbit

section

variable {sb : Super} {s s' : Store} {ip : Ptr} {k a ind j bn : ℕ}

theorem bmapSlot_taken (h : (s.inode ip).d.addrs k ≠ 0) :
    bmapSlot sb ip k s = .ok ((s.inode ip).d.addrs k, s) := by
  refine wp_eq_ok (wp_read ?_)
  rw [if_pos h]
  exact ⟨rfl, rfl⟩

theorem bmapSlot_new (h : (s.inode ip).d.addrs k = 0) (hb : Fs.balloc sb s = .ok (a, s'))
    (ha : a ≠ 0) :
    bmapSlot sb ip k s = .ok (a, s'.setAddr ip k a) := by
  refine wp_eq_ok (wp_read ?_)
  rw [if_neg (not_not.mpr h)]
  refine wp_seq (wp_of_ok hb ?_)
  rw [if_neg ha]
  exact ⟨rfl, rfl⟩

theorem bmapEntry_taken (h : getUint (s.block ind) j ≠ 0) :
    bmapEntry sb ind j s = .ok (getUint (s.block ind) j, s) := by
  refine wp_eq_ok (wp_read ?_)
  rw [if_pos h]
  exact ⟨rfl, rfl⟩

theorem bmapEntry_new (h : getUint (s.block ind) j = 0) (hb : Fs.balloc sb s = .ok (a, s'))
    (ha : a ≠ 0) :
    bmapEntry sb ind j s = .ok (a, s'.setBlock ind fun b => putUint b j a) := by
  refine wp_eq_ok (wp_read ?_)
  rw [if_neg (not_not.mpr h)]
  refine wp_seq (wp_of_ok hb ?_)
  rw [if_neg ha]
  exact ⟨rfl, rfl⟩

theorem bmap_indirect (hge : ¬bn < nDirect) (hlt : bn < maxFile)
    (h : bmapSlot sb ip nDirect s = .ok (a, s')) (ha : a ≠ 0) :
    bmap sb ip bn s = bmapEntry sb a (bn - nDirect) s' := by
  have hj : bn - nDirect < nIndirect := by
    unfold maxFile at hlt
    omega
  unfold bmap
  rw [if_neg hge, if_pos hj]
  change (bmapSlot sb ip nDirect >>= fun addr =>
    if addr = 0 then pure 0 else bmapEntry sb addr (bn - nDirect)) s = _
  rw [bind_ok h, if_neg ha]

end

/-! ## Blocks -/

theorem valid_tableOf : (m.view (tableOf i d)).Valid 0 := ⟨Nat.zero_lt_one, rfl⟩

theorem inode_tableOf : (m.view (tableOf i d)).inode 0 = ⟨i, 1, true, true, d⟩ := rfl

theorem din_tableOf {x : Option Ptr} (hw : Wf sup x (m.view (tableOf i d))) :
    (m.view (tableOf i d)).din i = d := Store.din_of_valid hw.uniq valid_tableOf

theorem setD_tableOf (f : Dinode → Dinode) :
    (m.view (tableOf i d)).setD 0 f = m.view (tableOf i (f d)) := by
  have h : update (tableOf i d) 0 ⟨i, 1, true, true, f d⟩ = tableOf i (f d) := update_idem ..
  exact congrArg m.view h

/-- `mkfs` has taken at most `c` blocks. -/
structure Took (c : ℕ) (m m' : Mk) : Prop where
  inode : m'.freeinode = m.freeinode
  lo : m.freeblock ≤ m'.freeblock
  hi : m'.freeblock ≤ m.freeblock + c

theorem Took.refl (m : Mk) : Took 0 m m := ⟨rfl, Nat.le_refl _, Nat.le_refl _⟩

theorem Took.trans {c c' : ℕ} {m'' : Mk} (h : Took c m m') (h' : Took c' m' m'') :
    Took (c + c') m m'' :=
  ⟨h'.inode.trans h.inode, h.lo.trans h'.lo, by have := h.hi; have := h'.hi; omega⟩

theorem Took.mono {c c' : ℕ} (h : Took c m m') (hc : c ≤ c') : Took c' m m' :=
  ⟨h.inode, h.lo, by have := h.hi; omega⟩

/-- The next block is in use from now on. -/
theorem Mk.Fine.next (h : m.Fine) (hlt : m.freeblock < fsSize) :
    ({ m with freeblock := m.freeblock + 1 } : Mk).Fine where
  super := h.super
  zero := fun b hb => h.zero b (by change m.freeblock + 1 ≤ b at hb; omega)
  lo := Nat.le_succ_of_le h.lo
  hi := hlt

/-- The program has the block `x` for a file, now with addresses `a`, as the kernel would have
    it. -/
structure Found (i : ℕ) (d : Dinode) (run : FsM ℕ) (m : Mk) (x : ℕ) (a : ℕ → ℕ) (m' : Mk) :
    Prop where
  same : run (m.view (tableOf i d)) = .ok (x, m'.view (tableOf i { d with addrs := a }))
  fine : m'.Fine
  packable : Packable { d with addrs := a }

theorem addrFor_spec (hm : m.Fine) (hw : Wf sup (some 0) (m.view (tableOf i d))) (hp : Packable d)
    {k : ℕ}
    (hk : k ≤ nDirect) {Q : ℕ × Dinode → Mk → Prop}
    (hQ : ∀ x a m', x ≠ 0 → (x < fsSize → Found i d (bmapSlot sup 0 k) m x a m') →
      (fsSize ≤ x → fsSize < m.freeblock + 1) → Took 1 m m' → m'.img = m.img → a k = x →
      (∀ j, j ≠ k → a j = d.addrs j) → Q (x, { d with addrs := a }) m') :
    wp (addrFor d k) Q E m := by
  unfold addrFor
  split
  · next h0 =>
    have hx0 : m.freeblock ≠ 0 := by
      have := hm.lo
      rw [nmeta_eq] at this
      omega
    refine wp_seq (wp_read (wp_seq (wp_set.mpr (wp_pure.mpr (wp_pure.mpr ?_)))))
    refine hQ m.freeblock _ _ hx0
      (fun hlt => ⟨?_, hm.next hlt, hp.size, fun j => ?_, fun j hj => ?_⟩) ?_
      ⟨rfl, Nat.le_succ _, Nat.le_refl _⟩ rfl (update_self ..)
      fun j hj => update_of_ne hj ..
    · rw [bmapSlot_new h0 (balloc_view hm hlt) hx0]
      exact congrArg (fun s => Except.ok (m.freeblock, s)) (setD_tableOf _)
    · by_cases hj : j = k
      · rw [hj]
        dsimp only
        rw [update_self]
        unfold fsSize at hlt
        omega
      · dsimp only
        rw [update_of_ne hj]
        exact hp.addrs j
    · dsimp only
      rw [update_of_ne (by omega)]
      exact hp.beyond j hj
    · omega
  · next h0 =>
    have hown := own_slotOfAddr hw valid_tableOf hk
    have hlt := (hw.exact.range (i, slotOfAddr k)
      (by rw [inode_tableOf] at hown; rw [hown]; exact h0)).2
    rw [inode_tableOf] at hown
    rw [hown] at hlt
    refine wp_pure.mpr
      (hQ (d.addrs k) d.addrs m h0 (fun _ => ⟨bmapSlot_taken h0, hm, hp⟩) (fun hle => ?_)
      ⟨rfl, Nat.le_refl _, Nat.le_succ _⟩ rfl rfl fun _ _ => rfl)
    exact absurd hlt (Nat.not_lt.mpr hle)

/-- A block in a slot is a data block in use. -/
theorem own_lt {x : Option Ptr} (hw : Wf sup x (m.view t)) {k : ℕ × Slot}
    (h0 : (m.view t).own k ≠ 0) :
    nmeta ≤ (m.view t).own k ∧ (m.view t).own k < m.freeblock ∧ (m.view t).own k < fsSize := by
  obtain ⟨h1, h2⟩ := hw.exact.range k h0
  exact ⟨h1, of_decide_eq_true (hw.exact.marked k h0), h2⟩

theorem block_view (hb : nmeta ≤ b) : (m.view t).block b = m.img b := if_pos hb

theorem entryFor_spec (hm : m.Fine) (hw : Wf sup (some 0) (m.view (tableOf i d))) (hp : Packable d)
    {ind j : ℕ} (hj : j < nIndirect) (hind : d.addrs nDirect = ind) (h0 : ind ≠ 0)
    {Q : ℕ → Mk → Prop}
    (hQ : ∀ x m', x ≠ 0 → (x < fsSize → Found i d (bmapEntry sup ind j) m x d.addrs m') →
      (fsSize ≤ x → fsSize < m.freeblock + 1) → Took 1 m m' → Q x m') :
        wp (entryFor ind j) Q E m := by
  have hown : (m.view (tableOf i d)).own (i, .ind) = ind :=
    (own_of_valid hw valid_tableOf .ind).trans hind
  have hent := own_entry hw valid_tableOf hj hown h0
  obtain ⟨h1, h2, h3⟩ := own_lt hw (hown ▸ h0)
  rw [hown] at h1 h2 h3
  have hb : (m.view (tableOf i d)).block ind = m.img ind := block_view h1
  rw [hb] at hent
  refine wp_seq (rsect_spec (fun _ => ?_) fun hle => absurd h3 (Nat.not_lt.mpr hle))
  split
  · next he =>
    have hx0 : m.freeblock ≠ 0 := by
      have := hm.lo
      rw [nmeta_eq] at this
      omega
    refine wp_seq (wp_read (wp_seq (wp_set.mpr (wp_pure.mpr (wp_seq (wsect_spec ?_))))))
    refine wp_pure.mpr (hQ m.freeblock _ hx0 (fun hlt => ⟨?_, ?_, hp⟩) (fun hle => by omega)
      ⟨rfl, Nat.le_succ _, Nat.le_refl _⟩)
    · rw [bmapEntry_new (hb ▸ he) (balloc_view hm hlt) hx0]
      exact congrArg (fun s => Except.ok (m.freeblock, s))
        (view_put h1 fun b => putUint b j m.freeblock).symm
    · rw [nmeta_eq] at h1
      exact (hm.next hlt).put (by omega) (Nat.lt_succ_of_lt h2) _
  · next he =>
    have hlt : getUint (m.img ind) j < fsSize := hent ▸ (own_lt hw (by rw [hent]; exact he)).2.2
    refine wp_pure.mpr
      (hQ _ m he (fun _ => ⟨?_, hm, hp⟩) (fun hle => absurd hlt (Nat.not_lt.mpr hle))
      ⟨rfl, Nat.le_refl _, Nat.le_succ _⟩)
    rw [← hb] at he ⊢
    exact bmapEntry_taken he

/-- The sector of a block of a file is that of `bmap`. -/
theorem sectorFor_spec (hm : m.Fine) (hw : Wf sup (some 0) (m.view (tableOf i d))) (hp : Packable d)
    {fbn : ℕ}
    (hfbn : fbn < maxFile) (hE : fsSize < m.freeblock + 2 → ∀ e, E e) {Q : ℕ × Dinode → Mk → Prop}
    (hQ : ∀ x a m', x ≠ 0 → (x < fsSize → Found i d (bmap sup 0 fbn) m x a m') →
      (fsSize ≤ x → fsSize < m.freeblock + 2) → Took 2 m m' →
      (∀ j, j < nDirect → j ≠ fbn → a j = d.addrs j) → Q (x, { d with addrs := a }) m') :
    wp (sectorFor d fbn) Q E m := by
  unfold sectorFor
  split
  · next hlt =>
    have hbmap : bmap sup 0 fbn = bmapSlot sup 0 fbn := if_pos hlt
    rw [hbmap] at hQ
    refine addrFor_spec hm hw hp (Nat.le_of_lt hlt) fun x a m' hx0 hfound hlarge htook _ _ hsame =>
      ?_
    exact hQ x a m' hx0 hfound (fun hle => by have := hlarge hle; omega) (htook.mono (by decide))
      fun j _ => hsame j
  · next hlt =>
    have hj : fbn - nDirect < nIndirect := by
      unfold maxFile at hfbn
      omega
    refine wp_seq
      (addrFor_spec hm hw hp (Nat.le_refl _) fun ind a m1 h0 hfound hlarge htook _ ha hsame => ?_)
    by_cases hind : ind < fsSize
    · obtain ⟨hrun, hm1, hp1⟩ := hfound hind
      have hw1 : Wf sup (some 0) (m1.view (tableOf i { d with addrs := a })) :=
        wp_ok (bmapSlot_spec hw valid_tableOf (E := fun _ => True) (Nat.le_refl nDirect)
          (Q := fun _ s => Wf sup (some 0) s) fun _ _ hg _ _ _ => hg.wf) hrun
      refine wp_seq (entryFor_spec hm1 hw1 hp1 hj ha h0 fun x m' hx0 hfound' hlarge' htook' =>
        wp_pure.mpr ?_)
      refine hQ x a m' hx0 (fun hx => ?_) (fun hle => ?_) (htook.trans htook') fun j hj _ =>
        hsame j (Nat.ne_of_lt hj)
      · obtain ⟨hrun', hm', hp'⟩ := hfound' hx
        refine ⟨?_, hm', hp'⟩
        rw [bmap_indirect hlt hfbn hrun h0]
        exact hrun'
      · have h2 := htook.hi
        omega
    · refine wp_seq (wp_seq (rsect_spec (fun h => absurd h hind) fun hle => hE ?_))
      have := hlarge hle
      omega

/-! ## Loops -/

theorem writeLoop_step {sb : Super} {s s1 : Store} {ip : Ptr} {src : ℕ → UInt8}
    {n fuel tot off x : ℕ}
    (htot : tot < n) (hb : bmap sb ip (off / bSize) s = .ok (x, s1)) (hx : x ≠ 0) {c : ℕ}
    (hc : min (n - tot) (bSize - off % bSize) = c) :
    writeLoop sb ip src (fun _ => none) n (fuel + 1) tot off s =
      writeLoop sb ip src (fun _ => none) n fuel (tot + c) (off + c)
        (s1.setBlock x fun b => overlay b (off % bSize) c fun j => src (tot + j)) := by
  rw [writeLoop, if_pos htot, bind_ok hb, if_neg hx, hc]
  rfl

/-- How many blocks `n` bytes at `off` are in. -/
def spans (off n : ℕ) : ℕ := if n = 0 then 0 else (off % bSize + n - 1) / bSize + 1

theorem spans_step {off n c : ℕ} (hn : 0 < n) (hc : min n (bSize - off % bSize) = c) :
    spans off n = spans (off + c) (n - c) + 1 := by
  unfold spans bSize at *
  split <;> split <;> omega

theorem chunk_length (off n : ℕ) :
    min n ((off / bSize + 1) * bSize - off) = min n (bSize - off % bSize) := by
  unfold bSize at *
  omega

theorem chunk_offset (off : ℕ) : off - off / bSize * bSize = off % bSize := by
  unfold bSize at *
  omega

/-- The loop of `iappend` is that of `writei`. -/
theorem appendLoop_spec {src p : ℕ → UInt8} {fuel n tot off : ℕ} {a0 : ℕ → ℕ} (hm : m.Fine)
    (hw : Wf sup (some 0) (m.view (tableOf i { d with addrs := a0 })))
    (hp : Packable { d with addrs := a0 })
    (hfuel : n ≤ fuel) (hoff : off ≤ maxFile * bSize) (hsrc : p = fun j => src (tot + j))
    (hE : maxFile * bSize < off + n ∨ fsSize < m.freeblock + 2 * spans off n → ∀ e, E e)
    {Q : ℕ × Dinode → Mk → Prop}
    (hQ : ∀ a m', off + n ≤ maxFile * bSize →
      writeLoop sup 0 src (fun _ => none) (tot + n) fuel tot off
        (m.view (tableOf i { d with addrs := a0 })) =
        .ok ((tot + n, off + n), m'.view (tableOf i { d with addrs := a })) →
      m'.Fine → Packable { d with addrs := a } → Took (2 * spans off n) m m' →
      (∀ j, j < nDirect → off + n ≤ j * bSize → a j = a0 j) →
      Q (off + n, { d with addrs := a }) m') :
    wp (appendLoop fuel p n off { d with addrs := a0 }) Q E m := by
  induction fuel generalizing m p n tot off a0 with
  | zero =>
    cases Nat.le_zero.mp hfuel
    exact wp_pure.mpr (hQ a0 m hoff rfl hm hp (.refl m) fun _ _ _ => rfl)
  | succ fuel ih =>
    unfold appendLoop
    split
    · next hn =>
      dsimp only
      split
      · next hfbn =>
        rw [chunk_length, chunk_offset]
        generalize hc : min n (bSize - off % bSize) = c
        have hspan := spans_step hn hc
        have hcn : c ≤ n := hc ▸ Nat.min_le_left _ _
        have hc0 : 0 < c := by
          have : off % bSize < bSize := Nat.mod_lt _ (by decide)
          omega
        refine wp_seq (sectorFor_spec hm hw hp hfbn (fun hlarge => hE (.inr (by omega)))
          fun x a m1 hx0 hfound hlarge htook hsame => ?_)
        refine wp_seq (rsect_spec (fun hx => wp_seq (wsect_spec ?_)) fun hle => hE (.inr ?_))
        · obtain ⟨hrun, hm1, hp1⟩ := hfound hx
          obtain ⟨hw1, hown⟩ := wp_ok (bmap_spec hw valid_tableOf (E := fun _ => True) hfbn
            (Q := fun b s => Wf sup (some 0) s ∧ (b ≠ 0 → s.own (i, .ofBlock (off / bSize)) = b))
            fun _ _ hg ho _ _ => ⟨hg.wf, ho⟩) hrun
          have hown := hown hx0
          obtain ⟨h1, h2, -⟩ := own_lt hw1 (by rw [hown]; exact hx0)
          rw [hown] at h1 h2
          have hview : (m1.put x (overlay (m1.img x) (off % bSize) c p)).view
              (tableOf i { d with addrs := a }) =
              (m1.view (tableOf i { d with addrs := a })).setBlock x
                fun b => overlay b (off % bSize) c fun j => src (tot + j) := by
            rw [hsrc]
            exact view_put h1 fun b => overlay b (off % bSize) c fun j => src (tot + j)
          have hoff' : off + c ≤ maxFile * bSize := by
            have e := Nat.div_add_mod off bSize
            unfold bSize at *
            omega
          have hsrc' : (fun j => p (c + j)) = fun j => src (tot + c + j) := by
            rw [hsrc]
            funext j
            rw [Nat.add_assoc]
          refine ih (hm1.put (by rw [nmeta_eq] at h1; omega) h2 _) ?_ hp1 (by omega) hoff' hsrc'
            (fun h => hE ?_) fun a' m' hmax hloop hm' hp' htook' hsame' => ?_
          · rw [hview]
            exact (hw1.setData hown hx0 _).1
          · rcases h with h | h
            · exact .inl (by omega)
            · refine .inr ?_
              have := htook.hi
              change fsSize < m1.freeblock + _ at h
              omega
          · have e1 : off + c + (n - c) = off + n := by omega
            have e2 : tot + c + (n - c) = tot + n := by omega
            rw [e1] at hmax hsame' ⊢
            rw [e1, e2, hview] at hloop
            refine hQ a' m' hmax ?_ hm' hp' ?_ fun j hj hle => ?_
            · have hmin : min (tot + n - tot) (bSize - off % bSize) = c := by
                rw [Nat.add_sub_cancel_left]
                exact hc
              rw [writeLoop_step (by omega) hrun hx0 hmin]
              exact hloop
            · have ht : Took (2 * spans (off + c) (n - c)) m1 m' :=
                ⟨htook'.inode, htook'.lo, htook'.hi⟩
              exact (htook.trans ht).mono (by omega)
            · rw [hsame' j hj hle]
              refine hsame j hj ?_
              rintro rfl
              have := Nat.div_mul_le_self off bSize
              omega
        · have := hlarge hle
          omega
      · next hfbn =>
        refine wp_stop.mpr (hE (.inl ?_) _)
        have := Nat.div_mul_le_self off bSize
        have := Nat.mul_le_mul_right bSize (Nat.le_of_not_lt hfbn)
        omega
    · next hn =>
      cases Nat.eq_zero_of_not_pos hn
      refine wp_pure.mpr (hQ a0 m hoff ?_ hm hp (.refl m) fun _ _ _ => rfl)
      rw [writeLoop, if_neg (by omega)]
      rfl

/-! ## `iappend` -/

/-- A sound state of `mkfs`, between the calls. An inode has no direct blocks behind its end. -/
structure Mk.Ok (m : Mk) : Prop where
  fine : m.Fine
  wf : Wf sup none (m.view emptyTable)
  fresh : ∀ i, m.freeinode ≤ i → (m.img.dinode superBlock i).type = .free
  tight : ∀ i j, j < nDirect → (m.img.dinode superBlock i).size ≤ j * bSize →
    (m.img.dinode superBlock i).addrs j = 0

/-- The files on the disk. -/
def Mk.node (m : Mk) : ℕ → Option Node := (m.view emptyTable).node

theorem Mk.Ok.node_some (hm : m.Ok) {n : Node} (hn : m.node i = some n) :
    (m.img.dinode superBlock i).type ≠ .free ∧ (m.img.dinode superBlock i).type = n.type ∧
      (m.img.dinode superBlock i).size = n.size := by
  have hdin := hm.wf.din_eq
  unfold Mk.node Store.node at hn
  rw [hdin] at hn
  split at hn
  · cases hn
  · rename_i ht
    cases hn
    exact ⟨ht, rfl, rfl⟩

theorem eq_zero_of_tableOf {e : Ptr} (h : 0 < ((m.view (tableOf i d)).inode e).ref) : e = 0 := by
  by_contra hne
  change 0 < (update emptyTable 0 ⟨i, 1, true, true, d⟩ e).ref at h
  rw [update_of_ne hne] at h
  exact Nat.lt_irrefl 0 h

theorem open_view (hw : Wf sup none (m.view emptyTable)) (hd : m.img.dinode superBlock i = d)
    (ht : d.type ≠ .free) :
    Wf sup none (m.view (tableOf i d)) ∧ (m.view (tableOf i d)).node = m.node := by
  refine hw.retable rfl rfl rfl (fun e e' he he' _ => ?_) (fun e he => ?_) fun e he => ?_
  · rw [eq_zero_of_tableOf he, eq_zero_of_tableOf he']
  · rw [eq_zero_of_tableOf he.1]
    exact hd
  · rw [eq_zero_of_tableOf he.1]
    exact ht

theorem close_view (hw : Wf sup none (m.view t)) :
    Wf sup none (m.view emptyTable) ∧ m.node = (m.view t).node :=
  hw.retable rfl rfl rfl (fun _ _ he => absurd he (Nat.lt_irrefl 0))
    (fun _ he => absurd he.1 (Nat.lt_irrefl 0))
    fun _ he => absurd he.1 (Nat.lt_irrefl 0)

/-- The inode after `n` bytes have been appended. -/
def Dinode.grow (d : Dinode) (a : ℕ → ℕ) (n : ℕ) : Dinode :=
  { d with addrs := a, size := d.size + n }

theorem writei_run {p : ℕ → UInt8} {n : ℕ} {a : ℕ → ℕ} (hi : i < nInodes)
    (hp : Packable (Dinode.grow d a n)) (hmax : d.size + n ≤ maxFile * bSize)
    (hloop : writeLoop sup 0 p (fun _ => none) n n 0 d.size (m.view (tableOf i d)) =
      .ok ((n, d.size + n), m'.view (tableOf i { d with addrs := a }))) :
    writei sup 0 p (fun _ => none) d.size n (m.view (tableOf i d)) =
      .ok (some n, (m'.putInode i (Dinode.grow d a n)).view (tableOf i (Dinode.grow d a n))) := by
  have hM : maxFile * bSize = 274432 := rfl
  have hsize : (if d.size < d.size + n then d.size + n else d.size) = d.size + n := by
    split <;> omega
  refine wp_eq_ok (wp_read ?_)
  rw [inode_tableOf, if_neg (by dsimp only; omega), if_neg (by omega)]
  refine wp_seq (wp_of_ok hloop (wp_putD (wp_pure.mpr ⟨rfl, ?_⟩)))
  rw [view_putInode hi hp]
  unfold Store.putD
  rw [inode_tableOf, setD_tableOf]
  dsimp only
  rw [hsize]
  rfl

/-- A call of `iappend` that returns is a call of `writei` at the end of the file. -/
theorem iappend_spec (hm : m.Ok) {p : ℕ → UInt8} {n : ℕ} {nd : Node} (hi : i < nInodes)
    (hnd : m.node i = some nd)
    (hE : maxFile * bSize < nd.size + n ∨ fsSize < m.freeblock + 2 * spans nd.size n → ∀ e, E e)
    (hQ : ∀ m', m'.Ok → Took (2 * spans nd.size n) m m' →
      m'.node = update m.node i (some (nd.put nd.size n n p)) → nd.size + n ≤ maxFile * bSize →
      Q () m') :
    wp (iappend i p n) Q E m := by
  have hM : maxFile * bSize = 274432 := rfl
  obtain ⟨ht, -, hsz⟩ := hm.node_some hnd
  generalize hd : m.img.dinode superBlock i = d at ht hsz
  rw [← hsz] at hE hQ
  obtain ⟨hw, hnode⟩ := open_view hm.wf hd ht
  have hsmall : d.size ≤ maxFile * bSize := by
    have := hw.small i trivial
    rw [din_tableOf hw] at this
    exact this ht
  refine wp_seq (rinode_spec hi ?_)
  rw [hd]
  have hsrc : p = fun j => p (0 + j) := by
    funext j
    rw [Nat.zero_add]
  refine wp_seq
    (appendLoop_spec hm.fine (hw.dirty _) (hd ▸ packable_dinode m.img i) (Nat.le_refl n) hsmall hsrc
    hE fun a m1 hmax hloop hm1 hp1 htook hsame => winode_spec hi ?_)
  rw [Nat.zero_add] at hloop
  have hp2 : Packable (Dinode.grow d a n) :=
    ⟨by change d.size + n < 2 ^ 32; omega, hp1.addrs, hp1.beyond⟩
  have hrun := writei_run hi hp2 hmax hloop
  -- the loop writes data blocks only
  have hsame1 : m1.img.dinode superBlock = m.img.dinode superBlock := by
    have := wp_ok (writeLoop_spec (hw.dirty _) valid_tableOf (E := fun _ => True) (Nat.sub_le n 0)
      (by omega) (fun k hk => hw.holes i k trivial (by rw [din_tableOf hw]; exact ht)
        (by rw [din_tableOf hw]; exact hk))
      (Q := fun _ s => s.dinode = m.img.dinode superBlock) fun _ _ _ _ _ _ _ _ hwr _ => hwr.disk)
        hloop
    exact this
  have hm2 := hm1.putInode hi (Dinode.grow d a n)
  have htook2 : Took (2 * spans d.size n) m (m1.putInode i (Dinode.grow d a n)) :=
    ⟨htook.inode, htook.lo, htook.hi⟩
  have hdin : (m1.putInode i (Dinode.grow d a n)).img.dinode superBlock =
      update (m.img.dinode superBlock) i (Dinode.grow d a n) := by
    rw [← hsame1]
    exact dinode_winode m1.img hi hp2
  change Q () (m1.putInode i (Dinode.grow d a n))
  generalize m1.putInode i (Dinode.grow d a n) = m2 at hrun hm2 htook2 hdin ⊢
  obtain ⟨hw2, hn2⟩ := wp_ok (writei_spec hw valid_tableOf trivial (E := fun _ => True)
    (Q := fun r s => ∀ c, r = some c → Wf sup none s ∧ s.node = update m.node i
      ((m.node i).map (Node.put d.size c c p)))
    (fun _ c hc => nomatch hc)
    (fun c c' s _ _ _ hc' _ _ hw' _ hn' e he => by
      cases he
      rw [hc' fun _ => rfl, inode_tableOf, hnode] at hn'
      exact ⟨hw', hn'⟩) (by omega)) hrun n rfl
  obtain ⟨hw3, hn3⟩ := close_view hw2
  rw [hnd, Option.map_some] at hn2
  refine hQ m2 ⟨hm2, hw3, fun j hj => ?_, fun j k hk hle => ?_⟩ htook2 (hn3.trans hn2) hmax
  · rw [htook2.inode] at hj
    have hji : j ≠ i := by
      rintro rfl
      rw [← hd] at ht
      exact ht (hm.fresh j hj)
    rw [hdin, update_of_ne hji]
    exact hm.fresh j hj
  · rw [hdin] at hle ⊢
    by_cases hji : j = i
    · rw [hji, update_self] at hle ⊢
      have hle : d.size + n ≤ k * bSize := hle
      have h0 := hm.tight i k hk (by rw [hd]; omega)
      rw [hd] at h0
      exact (hsame k hk hle).trans h0
    · rw [update_of_ne hji] at hle ⊢
      exact hm.tight j k hk hle

end Xv6.Mkfs
