/-
  What is on the disk while `mkfs` adds one file after the other.

  Inode `k + 2` holds the bytes of file `k`, and the root directory lists the names in the order of
  the command line (`Built`). The program stops only if a name or a file is too long or the blocks
  do not suffice; `cost` is a bound on what a list of files takes.
-/
import Xv6.Fs.DirSpec
import Xv6.Mkfs.Append

namespace Xv6.Mkfs

open Fs Lib Act Function List

variable {m m' : Mk} {i : ℕ} {E : Abort → Prop} {n nd : Node} {f : HostFile} {files : List HostFile}

/-! ## Inodes -/

theorem addr_of_addrs {d : Dinode} (h : d.addrs = fun _ => 0) (block : ℕ → Block) (σ : Slot) :
    d.addr block σ = 0 := by
  cases σ with
  | direct k => rw [Dinode.addr_direct, h, ite_self]
  | ind => rw [Dinode.addr_ind, h]
  | entry j => rw [Dinode.addr_entry, h, if_neg fun hc => hc.2 rfl]

theorem ialloc_spec (hm : m.Ok) (hlt : m.freeinode < nInodes) {type : IType} (ht : type ≠ .free)
    {Q : ℕ → Mk → Prop}
    (hQ : ∀ m', m'.Ok → m'.freeinode = m.freeinode + 1 → m'.freeblock = m.freeblock →
      m'.node = update m.node m.freeinode (some ⟨type, 0, 0, 1, 0, fun _ => 0⟩) →
      Q m.freeinode m') :
    wp (ialloc type) Q E m := by
  generalize hd : ({ Dinode.fresh type with nlink := 1 } : Dinode) = d
  have haddrs : d.addrs = fun _ => 0 := by rw [← hd]; rfl
  have hsize : d.size = 0 := by rw [← hd]; rfl
  have hp : Packable d := by
    refine ⟨by rw [hsize]; decide, fun j => ?_, fun j _ => ?_⟩
    · rw [haddrs]
      exact Nat.two_pow_pos 32
    · rw [haddrs]
  have hfree : m.node m.freeinode = none := by
    unfold Mk.node Store.node
    rw [hm.wf.din_eq]
    exact if_pos (hm.fresh _ (Nat.le_refl _))
  obtain ⟨hw, hn⟩ := hm.wf.alloc (d := d) (by rw [← hd]; exact ht) hsize (addr_of_addrs haddrs)
    hlt hfree
  refine wp_read (wp_seq (wp_set.mpr (wp_seq (winode_spec hlt (wp_pure.mpr ?_)))))
  rw [hd]
  have hdin := dinode_winode m.img hlt hp
  have hview := view_putInode (m := { m with freeinode := m.freeinode + 1 }) (t := emptyTable)
    hlt hp
  refine hQ _ ⟨?_, ?_, fun j hj => ?_, fun j k hk hle => ?_⟩ rfl rfl ?_
  · have hfine : Mk.Fine { m with freeinode := m.freeinode + 1 } :=
      ⟨hm.fine.super, hm.fine.zero, hm.fine.lo, hm.fine.hi⟩
    exact hfine.putInode hlt d
  · rw [hview]
    exact hw
  · change m.freeinode + 1 ≤ j at hj
    refine (congrArg Dinode.type ((congrFun hdin j).trans (update_of_ne (by omega) ..))).trans ?_
    exact hm.fresh j (by omega)
  · have hj : Image.dinode (Mk.putInode { m with freeinode := m.freeinode + 1 } m.freeinode d).img
      superBlock j =
        update (m.img.dinode superBlock) m.freeinode d j := congrFun hdin j
    rw [hj] at hle ⊢
    by_cases hji : j = m.freeinode
    · rw [hji, update_self, haddrs]
    · rw [update_of_ne hji] at hle ⊢
      exact hm.tight j k hk hle
  · unfold Mk.node
    rw [hview]
    rw [← hd] at hn ⊢
    exact hn

/-! ## Files -/

theorem spans_le_two {off c : ℕ} (hc : c ≤ bSize) : spans off c ≤ 2 := by
  unfold spans bSize at *
  split <;> omega

theorem bytes_append (n : Node) (c : List UInt8) :
    (n.put n.size c.length c.length fun j => c.getD j 0).bytes = n.bytes ++ c := by
  have hc : ((List.range c.length).map fun j => c.getD j 0) = c := by
    refine ext_getElem (by simp) fun j h1 h2 => ?_
    simp [h2]
  rw [n.bytes_put _ (Nat.le_refl _), hc, ← n.bytes_length, take_length,
    drop_eq_nil_of_le (Nat.le_add_right ..), append_nil]

theorem size_append (n : Node) (c : ℕ) (p : ℕ → UInt8) :
    (n.put n.size c c p).size = n.size + c := by
  change (if n.size < n.size + c then n.size + c else n.size) = _
  split <;> omega

variable {Q : Unit → Mk → Prop}

theorem appendChunks_spec {cs : List (List UInt8)} (hm : m.Ok) (hi : i < nInodes)
    (hn : m.node i = some n)
    (hcs : ∀ c ∈ cs, c.length ≤ bSize)
    (hE : maxFile * bSize < n.size + cs.flatten.length ∨ fsSize < m.freeblock + 4 * cs.length →
      ∀ e, E e)

    (hQ : ∀ m' n', m'.Ok → Took (4 * cs.length) m m' → m'.node = update m.node i (some n') →
      n'.type = n.type → n'.bytes = n.bytes ++ cs.flatten → Q () m') :
        wp (appendChunks i cs) Q E m := by
  induction cs generalizing m n with
  | nil =>
    refine wp_pure.mpr (hQ m n hm (.refl m) ?_ rfl (append_nil _).symm)
    exact (update_eq_self_iff.mpr hn.symm).symm
  | cons c cs ih =>
    have hspan : spans n.size c.length ≤ 2 := spans_le_two (hcs c mem_cons_self)
    have hlen : (c :: cs).flatten.length = c.length + cs.flatten.length := by simp
    rw [hlen, length_cons] at hE
    refine wp_seq (iappend_spec hm hi hn (fun h => hE (by omega)) fun m1 hm1 htook hn1 _ => ?_)
    refine ih hm1 (by rw [hn1, update_self]) (fun c' hc' => hcs c' (mem_cons_of_mem c hc'))
      (fun h => hE ?_) fun m' n' hm' htook' hn' ht' hb' => ?_
    · rw [size_append] at h
      have := htook.hi
      omega
    · refine hQ m' n' hm' ?_ ?_ ht' ?_
      · exact (htook.trans htook').mono (by rw [length_cons]; omega)
      · rw [hn', hn1, update_idem]
      · rw [hb', bytes_append, flatten_cons, append_assoc]

/-! ## The root directory -/

/-- The directory `n` has the entries `l`, from its start to its end. -/
structure Lists (n : Node) (l : List (Name × ℕ)) : Prop where
  size : n.size = direntSize * l.length
  inum : ∀ k (hk : k < l.length), (n.entry k).inum = l[k].2
  name : ∀ k (hk : k < l.length), nameOf (n.entry k).name = nameOf l[k].1.byte

theorem Lists.push {l : List (Name × ℕ)} (h : Lists n l) (name : Name) {i : ℕ} (hi : i < 2 ^ 16) :
    Lists (n.put n.size direntSize direntSize (direntBytes name i)) (l ++ [(name, i)]) := by
  have hset : n.put n.size direntSize direntSize (direntBytes name i) =
      n.setEntry l.length name i := by rw [h.size]; rfl
  have hother : ∀ k, k < l.length → (n.setEntry l.length name i).entry k = n.entry k :=
    fun k hk => Node.entry_setEntry_ne (Nat.ne_of_lt hk) name i
  refine ⟨?_, fun k hk => ?_, fun k hk => ?_⟩
  · rw [size_append, h.size, length_append, length_singleton, Nat.mul_add, Nat.mul_one]
  · rw [hset]
    rw [length_append, length_singleton] at hk
    by_cases hlt : k < l.length
    · rw [hother k hlt, getElem_append_left hlt]
      exact h.inum k hlt
    · obtain rfl : k = l.length := by omega
      rw [n.inum_setEntry l.length name hi]
      simp
  · rw [hset]
    rw [length_append, length_singleton] at hk
    by_cases hlt : k < l.length
    · rw [hother k hlt, getElem_append_left hlt]
      exact h.name k hlt
    · obtain rfl : k = l.length := by omega
      rw [n.nameOf_setEntry l.length name i]
      simp

/-- The entries of the root directory. -/
def dirents (files : List HostFile) : List (Name × ℕ) :=
  [(dot, rootIno), (dotdot, rootIno)] ++ files.mapIdx fun k f => (f.shortname, k + 2)

theorem dirents_snoc (files : List HostFile) (f : HostFile) :
    dirents (files ++ [f]) = dirents files ++ [(f.shortname, files.length + 2)] := by
  unfold dirents
  rw [mapIdx_concat, append_assoc]

theorem length_dirents (files : List HostFile) : (dirents files).length = files.length + 2 := by
  unfold dirents
  rw [length_append, length_mapIdx]
  exact Nat.add_comm ..

/-- An entry does not cross a block. -/
theorem spans_dirent (k : ℕ) : spans (direntSize * k) direntSize = 1 := by
  unfold spans bSize direntSize
  rw [if_neg (by decide)]
  omega

/-! ## All files -/

/-- The files that have been added. -/
structure Built (files : List HostFile) (m : Mk) : Prop where
  ok : m.Ok
  inode : m.freeinode = files.length + 2
  count : files.length + 2 ≤ nInodes
  root : ∃ n, m.node rootIno = some n ∧ n.type = .dir ∧ Lists n (dirents files)
  file : ∀ k (hk : k < files.length), ∃ n, m.node (k + 2) = some n ∧ n.type = .file ∧
    n.bytes = files[k].data
  names : ∀ f ∈ files, f.shortname.length ≤ dirSiz

/-- A file that no assertion refuses. -/
structure HostFile.Accepted (f : HostFile) : Prop where
  slash : slash ∉ stripUser f.path
  name : f.shortname.length ≤ dirSiz
  size : f.data.length ≤ maxFile * bSize

/-- A bound on the blocks for a file and its entry. -/
def HostFile.cost (f : HostFile) : ℕ := 2 + 4 * f.chunks.length

def cost (files : List HostFile) : ℕ := (files.map HostFile.cost).sum

theorem addFile_spec (h : Built files m) (hlen : files.length + 2 < nInodes)
    (hE : ¬(f.Accepted ∧ m.freeblock + f.cost ≤ fsSize) → ∀ e, E e)
    (hQ : ∀ m', Built (files ++ [f]) m' → m'.freeblock ≤ m.freeblock + f.cost → Q () m') :
    wp (addFile f) Q E m := by
  unfold addFile
  by_cases hslash : slash ∈ stripUser f.path
  · rw [if_pos hslash]
    exact wp_stop.mpr (hE (fun h => h.1.slash hslash) _)
  rw [if_neg hslash]
  by_cases hname : dirSiz < f.shortname.length
  · rw [if_pos hname]
    exact wp_stop.mpr (hE (fun h => absurd h.1.name (Nat.not_le.mpr hname)) _)
  rw [if_neg hname]
  obtain ⟨n, hroot, htype, hlists⟩ := h.root
  have hM : maxFile * bSize = 274432 := rfl
  have hN : nInodes = 200 := rfl
  have hD : direntSize = 16 := rfl
  have hsize : n.size = direntSize * (files.length + 2) := by rw [hlists.size, length_dirents]
  have hspan : spans n.size direntSize = 1 := by rw [hsize, spans_dirent]
  rw [hD] at hsize
  refine wp_seq
    (ialloc_spec h.ok (by rw [h.inode]; exact hlen) (by decide) fun m1 hm1 hi1 hb1 hn1 => ?_)
  rw [h.inode] at hn1 hi1 ⊢
  have hne : rootIno ≠ files.length + 2 := by unfold rootIno; omega
  have hroot1 : m1.node rootIno = some n := by rw [hn1, update_of_ne hne, hroot]
  refine wp_seq
    (iappend_spec hm1 (by decide) hroot1 (fun hlarge => hE fun hc => ?_) fun m2 hm2 ht2 hn2 _ => ?_)
  · have := hc.2
    unfold HostFile.cost at this
    omega
  have hself : m2.node (files.length + 2) = some ⟨.file, 0, 0, 1, 0, fun _ => 0⟩ := by
    rw [hn2, update_of_ne hne.symm, hn1, update_self]
  refine appendChunks_spec hm2 hlen hself f.chunk_le (fun hlarge => hE fun hc => ?_)
    fun m3 n3 hm3 ht3 hn3 htype3 hb3 => ?_
  · have h1 := hc.2
    have h2 := hc.1.size
    have h3 := ht2.hi
    unfold HostFile.cost at h1
    unfold HostFile.data at h2
    dsimp only at hlarge
    omega
  refine hQ m3 ⟨hm3, ?_, ?_, ?_, fun k hk => ?_, ?_⟩ ?_
  · rw [ht3.inode, ht2.inode, hi1, length_append, length_singleton]
  · rw [length_append, length_singleton]
    omega
  · refine ⟨n.put n.size direntSize direntSize (direntBytes f.shortname (files.length + 2)), ?_,
      htype, ?_⟩
    · rw [hn3, update_of_ne hne, hn2, update_self]
    rw [dirents_snoc]
    exact hlists.push f.shortname (by omega)
  · rw [length_append, length_singleton] at hk
    by_cases hlt : k < files.length
    · obtain ⟨n', hn', ht', hb'⟩ := h.file k hlt
      refine ⟨n', ?_, ht', ?_⟩
      · rw [hn3, update_of_ne (by omega), hn2, update_of_ne (by unfold rootIno; omega), hn1,
          update_of_ne (by omega), hn']
      · rw [hb', getElem_append_left hlt]
    · obtain rfl : k = files.length := by omega
      refine ⟨n3, by rw [hn3, update_self], htype3, ?_⟩
      rw [hb3, getElem_concat_length rfl]
      rfl
  · intro g hg
    rcases List.mem_append.mp hg with hg | hg
    · exact h.names g hg
    · rw [List.mem_singleton.mp hg]
      exact Nat.le_of_not_lt hname
  · have h1 := ht2.hi
    have h2 := ht3.hi
    unfold HostFile.cost
    omega

theorem addFiles_spec {fs : List HostFile} (h : Built files m)
    (hlen : files.length + fs.length + 2 ≤ nInodes)
    (hE : ¬((∀ f ∈ fs, f.Accepted) ∧ m.freeblock + cost fs ≤ fsSize) → ∀ e, E e)
    (hQ : ∀ m', Built (files ++ fs) m' → Q () m') : wp (addFiles fs) Q E m := by
  induction fs generalizing files m with
  | nil =>
    rw [append_nil] at hQ
    exact wp_pure.mpr (hQ m h)
  | cons f fs ih =>
    have hcost : cost (f :: fs) = f.cost + cost fs := by simp [cost]
    rw [hcost] at hE
    rw [length_cons] at hlen
    refine wp_seq (addFile_spec h (by omega) (fun hc => hE fun hall => hc ?_) fun m1 h1 hb1 => ?_)
    · exact ⟨hall.1 f mem_cons_self, by have := hall.2; omega⟩
    · refine ih h1 (by rw [length_append, length_singleton]; omega) (fun hc => hE fun hall => hc ?_)
        fun m' h' => hQ m' ?_
      · exact ⟨fun g hg => hall.1 g (mem_cons_of_mem f hg), by have := hall.2; omega⟩
      · rw [append_assoc] at h'
        exact h'

/-! ## The start -/

theorem readDinode_zero : readDinode (fun _ => 0) = .fresh .free := by
  have haddrs : (fun j => if j ≤ nDirect then getUint (fun _ => 0) (3 + j) else 0) = fun _ =>
      0 := by
    funext j
    rw [getUint_zero, ite_self]
  unfold readDinode
  rw [haddrs]
  rfl

theorem img_start {b : ℕ} (hb : b ≠ 1) : Mk.start.img b = fun _ => 0 := by
  change update (fun _ _ => 0) 1 superBlock.block b = _
  rw [update_of_ne hb]

theorem dinode_start (i : ℕ) : Mk.start.img.dinode superBlock i = .fresh .free := by
  by_cases hi : i < nInodes
  · rw [dinode_of_lt _ hi, img_start (Nat.ne_of_gt (one_lt_iblock i))]
    exact readDinode_zero
  · exact dinode_of_le _ (Nat.le_of_not_lt hi)

theorem start_ok : Mk.start.Ok := by
  have hv : ∀ e, ¬(Mk.start.view emptyTable).Valid e := fun e he => absurd he.1 (Nat.lt_irrefl 0)
  have hu : (Mk.start.view emptyTable).Uniq := fun e _ he => absurd he (Nat.lt_irrefl 0)
  have hdin : ∀ i, (Mk.start.view emptyTable).din i = .fresh .free := fun i =>
    (Store.din_of_not_cached fun e he => absurd he (hv e)).trans (dinode_start i)
  have hown : ∀ k, (Mk.start.view emptyTable).own k = 0 := fun k => if_pos (by rw [hdin]; rfl)
  refine ⟨⟨rfl, fun b hb => ?_, Nat.le_refl _, by decide⟩, ⟨hu, fun e he => absurd he (hv e),
    fun e _ he => absurd he (hv e), ⟨by decide, fun k hk => absurd (hown k) hk,
      fun k _ hk => absurd (hown k) hk, fun k hk => absurd (hown k) hk, fun b h1 _ h3 => ?_,
      fun b hb => ?_⟩,
    by decide, fun i _ _ ht => absurd (congrArg Dinode.type (hdin i)) ht,
    fun i _ ht => absurd (congrArg Dinode.type (hdin i)) ht, fun i _ =>
      congrArg Dinode.type (hdin i)⟩,
    fun i _ => congrArg Dinode.type (dinode_start i), fun i j _ _ =>
      congrFun (congrArg Dinode.addrs (dinode_start i)) j⟩
  · have hb : nmeta ≤ b := hb
    rw [nmeta_eq] at hb
    exact img_start (by omega)
  · exact absurd (of_decide_eq_true h3) (Nat.not_lt.mpr h1)
  · exact decide_eq_true hb

theorem addRoot_spec (hQ : ∀ m', Built [] m' → m'.freeblock ≤ nmeta + 4 → Q () m') :
    wp addRoot Q E Mk.start := by
  have hD : direntSize = 16 := rfl
  have hM : maxFile * bSize = 274432 := rfl
  have hN := nmeta_eq
  have hF : fsSize = 2000 := rfl
  refine wp_seq (ialloc_spec start_ok (by decide) (by decide) fun m1 hm1 hi1 hb1 hn1 => ?_)
  rw [if_pos (show Mk.start.freeinode = rootIno from rfl)]
  have hb1 : m1.freeblock = nmeta := hb1
  have hl1 : Lists ⟨.dir, 0, 0, 1, 0, fun _ => 0⟩ [] :=
    ⟨rfl, fun k hk => absurd hk (Nat.not_lt_zero k), fun k hk => absurd hk (Nat.not_lt_zero k)⟩
  have hroot1 : m1.node rootIno = some ⟨.dir, 0, 0, 1, 0, fun _ => 0⟩ := by
    rw [hn1]
    exact update_self ..
  have hdir : (⟨.dir, 0, 0, 1, 0, fun _ => 0⟩ : Node).type = .dir := rfl
  generalize (⟨.dir, 0, 0, 1, 0, fun _ => 0⟩ : Node) = n1 at hl1 hroot1 hdir
  have hs1 : spans n1.size direntSize = 1 := by rw [hl1.size, spans_dirent]
  have hz1 : n1.size = 0 := hl1.size
  refine wp_seq
    (iappend_spec hm1 (by decide) hroot1 (fun hlarge => by omega) fun m2 hm2 ht2 hn2 _ => ?_)
  have hl2 := hl1.push dot (i := rootIno) (by decide)
  have hroot2 :
      m2.node rootIno = some (n1.put n1.size direntSize direntSize (direntBytes dot rootIno)) := by
    rw [hn2]
    exact update_self ..
  have hdir2 : (n1.put n1.size direntSize direntSize (direntBytes dot rootIno)).type = .dir := hdir
  generalize n1.put n1.size direntSize direntSize (direntBytes dot rootIno) = n2 at hl2 hroot2 hdir2
  have hs2 : spans n2.size direntSize = 1 := by rw [hl2.size, spans_dirent]
  have hz2 : n2.size = 16 := hl2.size
  have hb2 := ht2.hi
  refine iappend_spec hm2 (by decide) hroot2 (fun hlarge => by omega) fun m3 hm3 ht3 hn3 _ => ?_
  have hb3 := ht3.hi
  refine hQ m3 ⟨hm3, ?_, by decide, ⟨n2.put n2.size direntSize direntSize
    (direntBytes dotdot rootIno), ?_, hdir2, hl2.push dotdot (i := rootIno) (by decide)⟩,
    fun k hk => absurd hk (Nat.not_lt_zero k), fun f hf => nomatch hf⟩ (by omega)
  · rw [ht3.inode, ht2.inode, hi1]
    rfl
  · rw [hn3]
    exact update_self ..

end Xv6.Mkfs
