/-
  The finished image: the free map, the root directory with its size rounded up, and whether the
  kernel finds the disk consistent.

  The counter of the blocks makes the free map exact by itself. The size of the root directory is
  rounded up to the next multiple of `BSIZE` after the last entry, also when the entries fill their
  blocks: then there is one block more than there are addresses. An entry has 16 bytes and there
  are two more entries than files, so this happens when 64 divides the number of files plus 2.
-/
import Xv6.Mkfs.Build

namespace Xv6.Mkfs

open Fs Lib Act Function

variable {m : Mk} {i b : ℕ} {E : Abort → Prop} {files : List HostFile} {img : Image}

/-! ## The free map -/

theorem or_and_right (x p q : UInt8) : ((x ||| p) &&& q) = (x &&& q) ||| (p &&& q) := by
  apply UInt8.eq_of_toBitVec_eq
  ext i
  simp [Bool.and_or_distrib_right]

theorem mask_and : ∀ a c : Fin 8, ((1 : UInt8) <<< UInt8.ofNat a) &&& (1 <<< UInt8.ofNat c) =
    if a = c then 1 <<< UInt8.ofNat c else 0 := by decide

theorem mask_ne_zero : ∀ c : Fin 8, ((1 : UInt8) <<< UInt8.ofNat c) ≠ 0 := by decide

/-- A bit is set in a byte. -/
theorem bit_or (x : UInt8) {a c : ℕ} (ha : a < 8) (hc : c < 8) :
    ((x ||| (1 <<< UInt8.ofNat a)) &&& (1 <<< UInt8.ofNat c) ≠ 0) ↔
      x &&& (1 <<< UInt8.ofNat c) ≠ 0 ∨ a = c := by
  have hmask : ((1 : UInt8) <<< UInt8.ofNat a) &&& (1 <<< UInt8.ofNat c) =
      if a = c then 1 <<< UInt8.ofNat c else 0 := by
    simpa only [Fin.mk.injEq] using mask_and ⟨a, ha⟩ ⟨c, hc⟩
  rw [or_and_right, hmask, ne_eq, UInt8.or_eq_zero_iff, not_and_or]
  split
  · next h =>
    exact iff_of_true (.inr (mask_ne_zero ⟨c, hc⟩)) (.inr h)
  · next h =>
    simp [h]

theorem markUsed_iff (used b : ℕ) : markUsed used (b / 8) &&& (1 <<< UInt8.ofNat (b % 8)) ≠ 0 ↔
    b < used := by
  induction used with
  | zero => simp [markUsed]
  | succ i ih =>
    unfold markUsed
    by_cases hb : b / 8 = i / 8
    · rw [hb] at ih ⊢
      rw [update_self, bit_or _ (Nat.mod_lt _ (by decide)) (Nat.mod_lt _ (by decide)), ih]
      omega
    · rw [update_of_ne hb, ih]
      omega

/-! ## The program -/

/-- The size of the root directory, rounded up. -/
def roundSize (size : ℕ) : ℕ := (size / bSize + 1) * bSize

def Dinode.rounded (d : Dinode) : Dinode := { d with size := roundSize d.size }

/-- The state at the end of the program. -/
def Mk.finish (m : Mk) : Mk :=
  (m.putInode rootIno (Dinode.rounded (m.img.dinode superBlock rootIno))).put superBlock.bmapstart
    (markUsed m.freeblock)

theorem finish_img (m : Mk) : m.finish.img = update (update m.img (superBlock.iblock rootIno)
    (putDinode (m.img (superBlock.iblock rootIno)) (rootIno % ipb)
      (Dinode.rounded (m.img.dinode superBlock rootIno)))) superBlock.bmapstart
        (markUsed m.freeblock) := rfl

theorem mkfs_spec (hlen : files.length + 2 ≤ nInodes)
    (hE : ¬((∀ f ∈ files, f.Accepted) ∧ nmeta + 4 + cost files ≤ fsSize) → ∀ e, E e)
    {Q : Unit → Mk → Prop} (hQ : ∀ m, Built files m → Q () m.finish) :
    wp (mkfs files) Q E Mk.start := by
  refine wp_seq
    (addRoot_spec fun m1 h1 hb1 => wp_seq (addFiles_spec h1 ?_ (fun hc => hE fun hall => hc ?_)
    fun m h => ?_))
  · rw [List.length_nil, Nat.zero_add]
    exact hlen
  · exact ⟨hall.1, by have := hall.2; omega⟩
  · have hused : m.freeblock < bpb := Nat.lt_of_le_of_lt h.ok.fine.hi (by decide)
    refine wp_seq (wp_seq (rinode_spec (by decide) (winode_spec (by decide) (wp_read ?_))))
    unfold balloc
    rw [if_pos]
    · exact wsect_spec (hQ m h)
    · exact hused

theorem makeImage_ok (hrun : makeImage files = .ok img) (hlen : files.length + 2 ≤ nInodes) :
    ∃ m, Built files m ∧ img = m.finish.img := by
  have hspec := mkfs_spec (E := fun _ => True) hlen (fun _ _ => trivial)
    (Q := fun _ m' => ∃ m, Built files m ∧ m'.img = m.finish.img) fun m h => ⟨m, h, rfl⟩
  unfold makeImage at hrun
  split at hrun
  · rename_i m' hm
    cases hrun
    exact wp_ok hspec hm
  · cases hrun

/-- The program returns if no assertion refuses a file and there are blocks enough. -/
theorem makeImage_returns (hlen : files.length + 2 ≤ nInodes) (hall : ∀ f ∈ files, f.Accepted)
    (hcost : nmeta + 4 + cost files ≤ fsSize) : ∃ img, makeImage files = .ok img := by
  obtain ⟨_, m, hm, -⟩ := wp_returns (mkfs_spec (E := fun _ => False) hlen
    (fun hc => absurd ⟨hall, hcost⟩ hc) (Q := fun _ _ => True) fun _ _ => trivial)
  refine ⟨m.img, ?_⟩
  unfold makeImage
  rw [hm]

/-! ## The mounted disk -/

theorem superBlock_fits : superBlock.Fits := by
  unfold SuperBlock.Fits
  decide

/-- The kernel's view of the finished image. -/
structure Shows (m : Mk) (s : Store) : Prop where
  bit : ∀ b, b < fsSize → s.bit b = decide (b < m.freeblock)
  block : s.block = (m.view emptyTable).block
  dinode : s.dinode = update (m.img.dinode superBlock) rootIno
    (Dinode.rounded (m.img.dinode superBlock rootIno))
  inode : s.inode = emptyTable

/-- The root directory that has been built. -/
theorem Built.root_dinode (h : Built files m) : (m.img.dinode superBlock rootIno).type = .dir ∧
      (m.img.dinode superBlock rootIno).size = direntSize * (files.length + 2) := by
  obtain ⟨n, hn, ht, hl⟩ := h.root
  obtain ⟨-, h1, h2⟩ := h.ok.node_some hn
  rw [h1, h2, hl.size, length_dirents]
  exact ⟨ht, rfl⟩

theorem Built.packable_rounded (h : Built files m) :
    Packable (Dinode.rounded (m.img.dinode superBlock rootIno)) := by
  have hp := packable_dinode m.img rootIno
  have hlen := h.count
  have hN : nInodes = 200 := rfl
  have hsize := h.root_dinode.2
  refine ⟨?_, hp.addrs, hp.beyond⟩
  change roundSize (m.img.dinode superBlock rootIno).size < 2 ^ 32
  rw [hsize]
  unfold roundSize bSize direntSize
  omega

theorem Built.read_super (h : Built files m) : SuperBlock.read (m.finish.img 1) = superBlock := by
  have hb : m.finish.img 1 = superBlock.block := by
    rw [finish_img, update_of_ne (by decide), update_of_ne (by decide)]
    exact h.ok.fine.super
  rw [hb, SuperBlock.read_block superBlock_fits]

theorem Built.mount (h : Built files m) : Shows m m.finish.img.mount := by
  have hsuper := h.read_super
  unfold Image.mount
  rw [hsuper]
  refine ⟨fun b hb => ?_, ?_, ?_, rfl⟩
  · have hB : bpb = 8192 := rfl
    have hF : fsSize = 2000 := rfl
    have hblock : superBlock.bblock b = superBlock.bmapstart := by
      unfold SuperBlock.bblock
      rw [Nat.div_eq_of_lt (by omega), Nat.zero_add]
    have hmap : m.finish.img superBlock.bmapstart = markUsed m.freeblock := by
      rw [finish_img, update_self]
    have hiff := markUsed_iff m.freeblock b
    change m.finish.img.bit superBlock b = _
    unfold Image.bit
    rw [hblock, hmap, Nat.mod_eq_of_lt (by omega : b < bpb), Bool.eq_iff_iff, bne_iff_ne,
      decide_eq_true_iff]
    exact hiff
  · funext b
    have hN : superBlock.toSuper.nmeta = nmeta := rfl
    dsimp only
    rw [hN]
    by_cases hb : nmeta ≤ b
    · have h1 := iblock_lt (show rootIno < nInodes by decide)
      have h2 : superBlock.bmapstart < nmeta := by decide
      rw [if_pos hb, block_view hb]
      rw [finish_img, update_of_ne (by omega), update_of_ne (by omega)]
    · rw [if_neg hb]
      exact (if_neg hb).symm
  · refine (dinode_data _ (Nat.le_refl _) _).trans ?_
    exact dinode_winode m.img (by decide) h.packable_rounded

/-! ## Consistency -/

/-- Inode `i` is opened, and bytes of it are read. -/
def readAt (sb : Super) (i : ℕ) (copy : ℕ → Bool) (off n : ℕ) : FsM (Option (List UInt8)) := do
  let ip ← iget i
  ilock ip
  readi sb ip copy off n

/-- What the kernel relies on: the free map marks exactly the blocks in front of the data blocks and
those that allocated inodes refer to, no block is referred to twice, an inode has an address for
each of its `ceil(size/BSIZE)` blocks, and reading it changes nothing on the disk. -/
structure Consistent (sb : Super) (s : Store) : Prop where
  marked : ∀ b, b < sb.size → (s.bit b = true ↔ b < sb.nmeta ∨ ∃ k, s.refers k = b)
  once : ∀ k k', s.refers k ≠ 0 → s.refers k = s.refers k' → k = k'
  full : ∀ i n, (s.dinode i).type ≠ .free → n < ((s.dinode i).size + bSize - 1) / bSize →
    s.refers (i, .ofBlock n) ≠ 0
  reads : ∀ i copy off n, (s.dinode i).type ≠ .free →
    wp (readAt sb i copy off n)
      (fun _ s' => s'.bit = s.bit ∧ s'.block = s.block ∧ s'.dinode = s.dinode)
      (fun _ => False) s

/-- The state after inode `i` has been read into an empty table and locked. -/
def Store.opened (s : Store) (i : ℕ) : Store := { s with inode := tableOf i (s.dinode i) }

variable {s : Store}

theorem iget_empty (hs : s.inode = emptyTable) :
    iget i s = .ok
      (0, { s with inode := update emptyTable 0 ⟨i, 1, false, false, .fresh .free⟩ }) := by
  rw [iget_idle fun e => by rw [hs]; rfl]
  unfold Store.setInode
  rw [hs]
  rfl

theorem open_spec {α : Type} {F : Stop → Prop} {k : Ptr → FsM α} {Q : α → Store → Prop}
    (hs : s.inode = emptyTable) (ht : (s.dinode i).type ≠ .free)
    (h : wp (k 0) Q F (Store.opened s i)) :
    wp (iget i >>= fun ip => ilock ip >>= fun _ => k ip) Q F s := by
  refine wp_seq (wp_of_ok (iget_empty hs) (wp_seq (wp_of_ok (ilock_fresh (i := i) rfl ht) ?_)))
  rw [update_idem]
  exact h

theorem opened_wf {H : ℕ → Prop} (hw : WfOn H sup none s) (ht : (s.dinode i).type ≠ .free) :
    WfOn H sup none (Store.opened s i) ∧ (Store.opened s i).node = s.node ∧
    (Store.opened s i).Valid 0 := by
  have hz : ∀ e, e ≠ 0 → ((Store.opened s i).inode e).ref = 0 := by
    intro e he
    show (update emptyTable 0 ⟨i, 1, true, true, s.dinode i⟩ e).ref = 0
    rw [update_of_ne he]
    rfl
  obtain ⟨h1, h2⟩ := hw.alone ht rfl hz rfl rfl rfl
  exact ⟨h1, h2, Nat.zero_lt_one, rfl⟩

/-- The size of the root directory does not matter for the addresses. -/
theorem Shows.refers (h : Shows m s) (hw : Wf sup none (m.view emptyTable)) :
    s.refers = (m.view emptyTable).own := by
  rw [hw.own_eq]
  funext k
  have hdin : (m.view emptyTable).dinode = m.img.dinode superBlock := rfl
  unfold Store.refers
  rw [h.dinode, h.block, hdin]
  by_cases hk : k.1 = rootIno
  · rw [hk, update_self]
    rfl
  · rw [update_of_ne hk]

theorem Shows.wfOn {H : ℕ → Prop} (h : Shows m s) (hw : Wf sup none (m.view emptyTable))
    (hroot : H rootIno → (∀ n, n * bSize < roundSize (m.img.dinode superBlock rootIno).size →
      s.refers (rootIno, .ofBlock n) ≠ 0) ∧
      roundSize (m.img.dinode superBlock rootIno).size ≤ maxFile * bSize) : WfOn H sup none s := by
  have hv : ∀ e, ¬s.Valid e := by
    intro e he
    have := he.1
    rw [h.inode] at this
    exact absurd this (Nat.lt_irrefl 0)
  have hu : s.Uniq := by
    intro e _ he
    rw [h.inode] at he
    exact absurd he (Nat.lt_irrefl 0)
  have hdin : s.din = s.dinode := Store.Clean.din_eq (fun e he => absurd he (hv e)) hu
  have hown : s.own = (m.view emptyTable).own := by
    rw [← h.refers hw]
    funext k
    unfold Store.own Store.refers
    rw [hdin]
  have hx := hw.exact
  have hother : ∀ i, i ≠ rootIno → s.din i = (m.view emptyTable).din i := by
    intro i hi
    rw [hdin, h.dinode, update_of_ne hi, hw.din_eq]
    rfl
  have hself : s.din rootIno = Dinode.rounded ((m.view emptyTable).din rootIno) := by
    rw [hdin, h.dinode, update_self, hw.din_eq]
    rfl
  refine ⟨hu, fun e he => absurd he (hv e), fun e _ he => absurd he (hv e), ?_, hw.fits,
    fun i n hH ht hn => ?_,
    fun i hH ht => ?_, fun i hi => ?_⟩
  · rw [hown]
    refine ⟨hx.pos, hx.range, hx.inj, fun k hk => ?_, fun b h1 h2 h3 => ?_, fun b hb => ?_⟩
    · rw [h.bit _ (hx.range k hk).2]
      exact hx.marked k hk
    · rw [h.bit b h2] at h3
      exact hx.used b h1 h2 h3
    · rw [h.bit b (Nat.lt_trans hb (by decide))]
      exact hx.low b hb
  · by_cases hi : i = rootIno
    · subst hi
      rw [hown, ← h.refers hw]
      refine (hroot hH).1 n ?_
      rw [hself, hw.din_eq] at hn
      exact hn
    · rw [hother i hi] at ht hn
      rw [hown]
      exact hw.holes i n trivial ht hn
  · by_cases hi : i = rootIno
    · subst hi
      rw [hself, hw.din_eq]
      exact (hroot hH).2
    · rw [hother i hi] at ht ⊢
      exact hw.small i trivial ht
  · have hne : i ≠ rootIno := by
      rintro rfl
      exact absurd hi (by decide)
    rw [hother i hne]
    exact hw.beyond i hi

/-- The blocks of the root directory, whose size has been rounded up. -/
theorem Built.root_full (h : Built files m) (hs : Shows m s) (hd : ¬64 ∣ files.length + 2) {n : ℕ}
    (hn : n * bSize < roundSize (m.img.dinode superBlock rootIno).size) :
    s.refers (rootIno, .ofBlock n) ≠ 0 := by
  obtain ⟨ht, hsize⟩ := h.root_dinode
  rw [hs.refers h.ok.wf]
  refine h.ok.wf.holes rootIno n trivial ?_ ?_
  · rw [h.ok.wf.din_eq]
    exact fun hc => nomatch ht.symm.trans hc
  · rw [h.ok.wf.din_eq]
    change n * bSize < (m.img.dinode superBlock rootIno).size
    rw [hsize] at hn ⊢
    unfold roundSize bSize direntSize at *
    omega

/-- Where the entries fill their blocks, the last block is missing. -/
theorem Built.root_hole (h : Built files m) (hs : Shows m s) (hd : 64 ∣ files.length + 2) :
    (s.dinode rootIno).type ≠ .free ∧
      (files.length + 2) / 64 < ((s.dinode rootIno).size + bSize - 1) / bSize ∧
        s.refers (rootIno, .ofBlock ((files.length + 2) / 64)) = 0 := by
  obtain ⟨ht, hsize⟩ := h.root_dinode
  have hlen := h.count
  have hN : nInodes = 200 := rfl
  have hdin : s.dinode rootIno = Dinode.rounded (m.img.dinode superBlock rootIno) := by
    rw [hs.dinode, update_self]
  have hk : (files.length + 2) / 64 < nDirect := by
    unfold nDirect
    omega
  have haddr := h.ok.tight rootIno _ hk (by
    rw [hsize]
    unfold bSize direntSize
    omega)
  refine ⟨?_, ?_, ?_⟩
  · rw [hdin]
    exact fun hc => nomatch ht.symm.trans hc
  · rw [hdin]
    change _ < (roundSize (m.img.dinode superBlock rootIno).size + bSize - 1) / bSize
    rw [hsize]
    unfold roundSize bSize direntSize
    omega
  · have hslot : Slot.ofBlock ((files.length + 2) / 64) = .direct ((files.length + 2) / 64) :=
      if_pos hk
    unfold Store.refers
    rw [hslot, hdin, Dinode.addr_direct, if_pos hk]
    change (if _ then 0 else (m.img.dinode superBlock rootIno).addrs ((files.length + 2) / 64)) = 0
    rw [haddr, ite_self]

/-- **The image is consistent** exactly when the entries of the root directory do not fill their
blocks, that is, when 64 does not divide the number of files plus 2. -/
theorem image_consistent_iff (hrun : makeImage files = .ok img)
    (hlen : files.length ≤ nInodes - 2) :
    Consistent (SuperBlock.read (img 1)).toSuper img.mount ↔ ¬64 ∣ files.length + 2 := by
  have hN : nInodes = 200 := rfl
  obtain ⟨m, h, rfl⟩ := makeImage_ok hrun (by omega)
  have hs := h.mount
  have hw := h.ok.wf
  rw [h.read_super]
  constructor
  · intro hc hd
    obtain ⟨h1, h2, h3⟩ := h.root_hole hs hd
    exact hc.full rootIno _ h1 h2 h3
  · intro hd
    have hwf : Wf sup none m.finish.img.mount := by
      refine hs.wfOn hw fun _ => ⟨fun n => h.root_full hs hd, ?_⟩
      rw [h.root_dinode.2]
      have := h.count
      unfold roundSize bSize direntSize maxFile nDirect nIndirect
      omega
    have hdin := hwf.din_eq
    have hown := hwf.own_eq
    have hx := hwf.exact
    rw [hown] at hx
    refine ⟨fun b hb => hx.bit_iff hb, hx.inj, fun i n ht hn => ?_, fun i copy off n ht => ?_⟩
    · rw [← hown]
      refine hwf.holes i n trivial (by rw [hdin]; exact ht) ?_
      rw [hdin]
      unfold bSize at *
      omega
    · obtain ⟨h1, -, h3⟩ := opened_wf hwf ht
      exact open_spec hs.inode ht (readi_spec h1 h3 trivial fun _ _ _ => ⟨rfl, rfl, rfl⟩)

/-- `user/_cat` with three bytes. -/
def catFile : HostFile :=
  ⟨[117, 115, 101, 114, 47, 95, 99, 97, 116], [[1, 2, 3]], by decide +kernel, by decide,
    by decide +kernel⟩

theorem image_consistent_small : ∃ img, makeImage [catFile] = .ok img ∧
    Consistent (SuperBlock.read (img 1)).toSuper img.mount := by
  have hall : ∀ f ∈ [catFile], f.Accepted := by
    intro f hf
    rw [List.mem_singleton.mp hf]
    exact ⟨by decide, by decide, by decide +kernel⟩
  obtain ⟨img, hrun⟩ : ∃ img, makeImage [catFile] = .ok img :=
    makeImage_returns (by decide) hall (by decide +kernel)
  exact ⟨img, hrun, (image_consistent_iff hrun (by decide)).mpr (by decide)⟩

/-- An empty file whose name is a letter and a digit. -/
def emptyFile (k : Fin 62) : HostFile :=
  ⟨[UInt8.ofNat (97 + k / 10), UInt8.ofNat (48 + k % 10)], [], (by revert k; decide +kernel),
    nofun, nofun⟩

def manyFiles : List HostFile := (List.finRange 62).map emptyFile

/-- With 62 files the root directory has size 2048 and one block. -/
theorem root_directory_hole : (manyFiles.map HostFile.shortname).Nodup ∧
    ∃ img, makeImage manyFiles = .ok img ∧
    (img.mount.dinode rootIno).type ≠ .free ∧
    1 < ((img.mount.dinode rootIno).size + bSize - 1) / bSize ∧
    img.mount.refers (rootIno, .ofBlock 1) = 0 := by
  have hall : ∀ f ∈ manyFiles, f.Accepted := by
    intro f hf
    obtain ⟨k, -, rfl⟩ := List.mem_map.mp hf
    clear hf
    exact ⟨(by revert k; decide +kernel), (by revert k; decide +kernel), Nat.zero_le _⟩
  obtain ⟨img, hrun⟩ : ∃ img, makeImage manyFiles = .ok img :=
    makeImage_returns (by decide) hall (by decide +kernel)
  obtain ⟨m, h, rfl⟩ := makeImage_ok hrun (by decide)
  exact ⟨by decide +kernel, _, hrun, h.root_hole h.mount (by decide)⟩

end Xv6.Mkfs
