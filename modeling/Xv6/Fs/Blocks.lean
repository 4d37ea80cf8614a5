/-
  Ownership of disk blocks over whole runs.

  A run is a sequence of the functions of `fs.c` and of `create` and `unlink`, each executed as a
  whole, in any order and with any arguments that their callers may pass: a pointer to an inode is
  a reference that somebody holds, and an inode whose content is used has been locked. In every
  state of a run that starts with a sound disk the bit map marks exactly the blocks that inodes
  refer to, none of them twice, so that no run frees a free block.
-/
import Xv6.Fs.PathSpec
import Xv6.Fs.Sysfile
import Xv6.Lib.Run

namespace Xv6.Fs

open Lib Act Multiset Store

variable {sb : Super} {s : Store} {ip dp : Ptr} {i d : ℕ} {b : Bool} {r : Ref} {L : Multiset Ref}

/-! ## Functions in any state -/

/-- Any stop but the panic of `bfree`. -/
def NoDoubleFree (e : Stop) : Prop := e ≠ .freeingFreeBlock

theorem noDoubleFree : Lenient NoDoubleFree := by
  constructor <;> exact nofun

theorem noType_noDoubleFree : NoDoubleFree .noType := nofun

section

variable {Q : Unit → Store → Prop}

theorem iunlockput_holds (h : Holds sb (⟨ip, i, b⟩ ::ₘ L) s) (hQ : ∀ s', Holds sb L s' → Q () s') :
    wp (iunlockput ip) Q NoDoubleFree s :=
  iunlockput_safe h (fun _ => noDoubleFree.iunlock) fun s' h' _ _ => hQ s' h'

theorem iput_holds (h : Holds sb (⟨ip, i, b⟩ ::ₘ L) s) (hQ : ∀ s', Holds sb L s' → Q () s') :
    wp (iput ip) Q NoDoubleFree s :=
  iput_safe h (fun _ => noDoubleFree.blocked) fun s' h' _ _ => hQ s' h'

theorem ilock_holds (h : Holds sb (⟨ip, i, b⟩ ::ₘ L) s)
    (hQ : ∀ s', Holds sb (⟨ip, i, true⟩ ::ₘ L) s' → Q () s') : wp (ilock ip) Q NoDoubleFree s :=
  ilock_spec h (fun _ => noDoubleFree.blocked) (fun _ => noType_noDoubleFree) fun s' h' _ _ =>
    hQ s' h'

end

/-- The node of an inode that has been read. -/
theorem Holds.exists_node (h : Holds sb L s) (hr : r ∈ L) (hl : r.loaded = true) :
    ∃ n, s.node r.inum = some n := Option.ne_none_iff_exists'.mp (h.node_loaded hr hl)

variable {Q : Bool → Store → Prop} {name : Name}

theorem dirlookup_holds (h : Holds sb L s) (hr : r ∈ L) (hl : r.loaded = true)
    {Q : Option (Ptr × ℕ) → Store → Prop} (hnone : Q none s)
    (hsome : ∀ n k ip i s', s.node r.inum = some n → n.Used k →
      Holds sb (⟨ip, i, false⟩ ::ₘ L) s' → s'.node = s.node → Q (some (ip, direntSize * k)) s') :
    wp (dirlookup sb r.ptr name) Q NoDoubleFree s := by
  obtain ⟨n, hn⟩ := h.exists_node hr hl
  exact dirlookup_spec h (h.open hr hl hn) (fun _ => noDoubleFree.notDir)
    (fun _ => noDoubleFree.dirlookupRead) (fun _ => noDoubleFree.noInodes) (fun _ => hnone)
    fun k ip s' hk h' hn' _ => hsome n k ip _ s' hn (Node.lookup_some hk).1 h' hn'

theorem dirlink_holds (h : Holds sb (⟨dp, d, true⟩ ::ₘ L) s) {inum : ℕ}
    (hQ : ∀ ok s', Holds sb (⟨dp, d, true⟩ ::ₘ L) s' → Q ok s') :
    wp (dirlink sb dp name inum) Q NoDoubleFree s := by
  obtain ⟨n, hn⟩ := h.exists_node (mem_cons_self ⟨dp, d, true⟩ L) rfl
  exact dirlink_spec h hn (fun _ => noDoubleFree.notDir)
    (fun _ => ⟨noDoubleFree.dirlookupRead, noDoubleFree.dirlinkRead⟩)
    (fun _ => noDoubleFree.noInodes) (fun _ _ _ => noDoubleFree.blocked)
      (fun s' _ h' _ => hQ false s' h') (fun _ _ s' _ _ _ _ h' _ => hQ false s' h')
    fun s' _ _ h' _ => hQ true s' h'

theorem nameiparent_holds (h : Holds sb L s) (hr : r ∈ L) {path : Path}
    {Q : Option (Ptr × Name) → Store → Prop} (hnone : ∀ s', Holds sb L s' → Q none s')
    (hsome : ∀ ip i b name s', Holds sb (⟨ip, i, b⟩ ::ₘ L) s' → Q (some (ip, name)) s') :
    wp (nameiparent sb r.ptr path) Q NoDoubleFree s :=
  namex_spec (fun _ => noDoubleFree) (fun _ => noDoubleFree.noInodes) h hr
    (fun _ => noType_noDoubleFree) (fun s' h' _ => hnone s' h')
    fun ip i b name s' h' _ => hsome ip i b name s' h'

/-! ## create and unlink -/

section

variable {Q : Option Ptr → Store → Prop}

variable {type : IType}

theorem createOld_holds (h : Holds sb (⟨ip, i, b⟩ ::ₘ ⟨dp, d, true⟩ ::ₘ L) s)
    (hnone : ∀ s', Holds sb L s' → Q none s')
    (hsome : ∀ s', Holds sb (⟨ip, i, true⟩ ::ₘ L) s' → Q (some ip) s') :
    wp (create.createOld dp ip type) Q NoDoubleFree s := by
  refine wp_seq (iunlockput_holds (cons_swap _ _ L ▸ h) fun s1 h1 => ?_)
  refine wp_seq (ilock_holds h1 fun s2 h2 => wp_read ?_)
  split
  · exact wp_pure.mpr (hsome s2 h2)
  · exact wp_seq (iunlockput_holds h2 fun s3 h3 => wp_pure.mpr (hnone s3 h3))

section

variable (h : Holds sb (⟨ip, i, true⟩ ::ₘ ⟨dp, d, true⟩ ::ₘ L) s)

include h

theorem createDots_holds {Q : Bool → Store → Prop}
    (hQ : ∀ ok s', Holds sb (⟨ip, i, true⟩ ::ₘ ⟨dp, d, true⟩ ::ₘ L) s' → Q ok s') :
    wp (create.createDots sb dp ip type) Q NoDoubleFree s := by
  refine wp_read ?_
  split
  · refine wp_seq (dirlink_holds h fun ok s1 h1 => ?_)
    cases ok with
    | true => exact dirlink_holds h1 hQ
    | false => exact wp_pure.mpr (hQ false s1 h1)
  · exact wp_pure.mpr (hQ true s h)

theorem createLink_holds {Q : Bool → Store → Prop}
    (hQ : ∀ ok s', Holds sb (⟨ip, i, true⟩ ::ₘ ⟨dp, d, true⟩ ::ₘ L) s' → Q ok s') :
    wp (create.createLink sb dp ip name) Q NoDoubleFree s := by
  refine wp_read (dirlink_holds (cons_swap _ _ L ▸ h) fun ok s1 h1 => ?_)
  exact hQ ok s1 (cons_swap _ _ L ▸ h1)

theorem createDone_holds (hQ : ∀ s', Holds sb (⟨ip, i, true⟩ ::ₘ L) s' → Q (some ip) s') :
    wp (create.createDone dp ip type) Q NoDoubleFree s := by
  have h := cons_swap _ _ L ▸ h
  unfold create.createDone
  split
  · refine relink_spec (g := fun v => v + 1) h fun s1 h1 _ => ?_
    exact wp_seq (iunlockput_holds h1 fun s2 h2 => wp_pure.mpr (hQ s2 h2))
  · exact wp_seq (iunlockput_holds h fun s2 h2 => wp_pure.mpr (hQ s2 h2))

theorem createFail_holds (hQ : ∀ s', Holds sb L s' → Q none s') :
    wp (create.createFail dp ip) Q NoDoubleFree s := by
  refine relink_spec (g := fun _ => 0) h fun s1 h1 _ => ?_
  refine wp_seq (iunlockput_holds h1 fun s2 h2 => ?_)
  exact wp_seq (iunlockput_holds h2 fun s3 h3 => wp_pure.mpr (hQ s3 h3))

end

theorem create_holds (h : Holds sb L s) (hr : r ∈ L) {path : Path}
    {major minor : BitVec 16} (ht : type ≠ .free) (hnone : ∀ s', Holds sb L s' → Q none s')
    (hsome : ∀ ip i s', Holds sb (⟨ip, i, true⟩ ::ₘ L) s' → Q (some ip) s') :
    wp (create sb r.ptr path type major minor) Q NoDoubleFree s := by
  refine wp_seq
    (nameiparent_holds h hr (fun s1 h1 => wp_pure.mpr (hnone s1 h1)) fun dp d b name s1 h1 => ?_)
  refine wp_seq (ilock_holds h1 fun s2 h2 => wp_seq (dirlookup_holds
    (r := ⟨dp, d, true⟩) h2 (mem_cons_self _ _) rfl ?_ fun _ k ip i s3 _ _ h3 _ => ?_))
  · -- a new inode
    refine wp_seq (ialloc_spec h2 ht noDoubleFree.noInodes ?_ fun ip i s3 _ _ _ h3 _ => ?_)
    · exact wp_seq (iunlockput_holds h2 fun s3 h3 => wp_pure.mpr (hnone s3 h3))
    · refine wp_seq (ilock_holds h3 fun s4 h4 => newinode_spec h4 fun s5 h5 _ => ?_)
      refine wp_seq (createDots_holds h5 fun ok s6 h6 => ?_)
      have hend : ∀ (ok : Bool) s7, Holds sb (⟨ip, i, true⟩ ::ₘ ⟨dp, d, true⟩ ::ₘ L) s7 →
          wp (if ok = true then create.createDone dp ip type else create.createFail dp ip) Q
            NoDoubleFree s7 := by
        intro ok s7 h7
        cases ok with
        | true => exact createDone_holds h7 fun s8 h8 => hsome ip i s8 h8
        | false => exact createFail_holds h7 hnone
      cases ok with
      | true => exact wp_seq (createLink_holds h6 hend)
      | false => exact wp_seq (wp_pure.mpr (hend false s6 h6))
  · exact createOld_holds h3 hnone (hsome ip i)

end

theorem unlinkDone_holds (h : Holds sb (⟨ip, i, true⟩ ::ₘ ⟨dp, d, true⟩ ::ₘ L) s)
    (hQ : ∀ b s', Holds sb L s' → Q b s') :
    wp (sysUnlink.unlinkDone dp ip) Q NoDoubleFree s := by
  refine wp_seq (iunlockput_holds (cons_swap _ _ L ▸ h) fun s1 h1 => ?_)
  refine relink_spec (g := fun v => v - 1) h1 fun s2 h2 _ => ?_
  exact wp_seq (iunlockput_holds h2 fun s3 h3 => wp_pure.mpr (hQ true s3 h3))

theorem unlinkEntry_holds (h : Holds sb (⟨ip, i, true⟩ ::ₘ ⟨dp, d, true⟩ ::ₘ L) s) {n : Node}
    {k : ℕ}
    (hn : s.node d = some n) (hk : n.Used k) (hQ : ∀ b s', Holds sb L s' → Q b s') :
    wp (sysUnlink.unlinkEntry sb dp ip (direntSize * k)) Q NoDoubleFree s := by
  refine wp_seq (writeEntry_spec (r := ⟨dp, d, true⟩) h
    (mem_cons_of_mem (mem_cons_self _ _)) rfl hn (Nat.le_of_lt hk.1)
    (fun w s1 hw _ h1 _ => ?_) fun s1 _ h1 _ => ?_)
  · rw [if_pos hw]
    exact noDoubleFree.unlinkWritei
  · rw [if_neg (not_not.mpr rfl)]
    refine wp_read ?_
    split
    · refine relink_spec (g := fun v => v - 1) (cons_swap _ _ L ▸ h1) fun s2 h2 _ => ?_
      exact unlinkDone_holds (cons_swap _ _ L ▸ h2) hQ
    · exact unlinkDone_holds h1 hQ

theorem sysUnlink_holds (h : Holds sb L s) (hr : r ∈ L) {path : Option Path}
    (hQ : ∀ b s', Holds sb L s' → Q b s') : wp (sysUnlink sb r.ptr path) Q NoDoubleFree s := by
  unfold sysUnlink
  cases path with
  | none => exact wp_pure.mpr (hQ false s h)
  | some path =>
    dsimp only
    refine wp_seq (nameiparent_holds h hr (fun s1 h1 => wp_pure.mpr (hQ false s1 h1))
      fun dp d b name s1 h1 => ?_)
    refine wp_seq (ilock_holds h1 fun s2 h2 => ?_)
    have hbad : ∀ s3, Holds sb (⟨dp, d, true⟩ ::ₘ L) s3 →
        wp (sysUnlink.unlinkBad dp) Q NoDoubleFree s3 := by
      intro s3 h3
      exact wp_seq (iunlockput_holds h3 fun s4 h4 => wp_pure.mpr (hQ false s4 h4))
    split
    · exact hbad s2 h2
    · refine wp_seq (dirlookup_holds (r := ⟨dp, d, true⟩) h2 (mem_cons_self _ _) rfl
        (hbad s2 h2) fun n k ip i s3 hn hk h3 hn3 => ?_)
      refine wp_seq (ilock_spec h3 (fun _ => noDoubleFree.blocked) (fun _ => noType_noDoubleFree)
        fun s4 h4 hn4 _ => wp_read ?_)
      have hn4 : s4.node d = some n := by
        rw [hn4, hn3]
        exact hn
      split
      · exact nofun
      · split
        · have hr4 := mem_cons_self (⟨ip, i, true⟩ : Ref) (⟨dp, d, true⟩ ::ₘ L)
          obtain ⟨m, hm⟩ := h4.exists_node hr4 rfl
          refine wp_seq (isdirempty_spec (h4.open hr4 rfl hm)
            (fun _ => noDoubleFree.isdiremptyReadi) fun empty _ => ?_)
          cases empty with
          | true => exact unlinkEntry_holds h4 hn4 hk hQ
          | false => exact wp_seq (iunlockput_holds h4 fun s5 h5 => hbad s5 h5)
        · exact unlinkEntry_holds h4 hn4 hk hQ

/-! ## Runs -/

/-- A call of a function. -/
inductive Op where
  | iget (inum : ℕ)
  | idup (ip : Ptr)
  | ilock (ip : Ptr)
  | iunlock (ip : Ptr)
  | iput (ip : Ptr)
  | ialloc (type : IType)
  | itrunc (ip : Ptr)
  | readi (ip : Ptr) (copy : ℕ → Bool) (off n : ℕ)
  | writei (ip : Ptr) (src : ℕ → UInt8) (copy : ℕ → Option ℕ) (off n : ℕ)
  | dirlink (dp : Ptr) (name : Name) (inum : ℕ)
  | create (cwd : Ptr) (path : Path) (type : IType) (major minor : BitVec 16)
  | unlink (cwd : Ptr) (path : Option Path)

namespace Op

def exec (sb : Super) : Op → FsM Unit
  | iget inum => do
    let _ ← Fs.iget inum
    return ()
  | idup ip => do
    let _ ← Fs.idup ip
    return ()
  | ilock ip => Fs.ilock ip
  | iunlock ip => Fs.iunlock ip
  | iput ip => Fs.iput ip
  | ialloc type => do
    let _ ← Fs.ialloc sb type
    return ()
  | itrunc ip => Fs.itrunc ip
  | readi ip copy off n => do
    let _ ← Fs.readi sb ip copy off n
    return ()
  | writei ip src copy off n => do
    let _ ← Fs.writei sb ip src copy off n
    return ()
  | dirlink dp name inum => do
    let _ ← Fs.dirlink sb dp name inum
    return ()
  | create cwd path type major minor => do
    let _ ← Fs.create sb cwd path type major minor
    return ()
  | unlink cwd path => do
    let _ ← sysUnlink sb cwd path
    return ()

/-- What the callers of the function see to: an inode is held, an inode whose content is used has
been read, and a new inode has a type. -/
def Ready (s : Store) : Op → Prop
  | iget _ => True
  | idup ip | ilock ip | iunlock ip | iput ip => 0 < (s.inode ip).ref
  | ialloc type => type ≠ .free
  | itrunc ip | readi ip _ _ _ => s.Valid ip
  | writei ip _ _ _ n => s.Valid ip ∧ n < 2 ^ 32
  | dirlink dp _ _ => s.Valid dp
  | create cwd _ type _ _ => 0 < (s.inode cwd).ref ∧ type ≠ .free
  | unlink cwd _ => 0 < (s.inode cwd).ref

instance (s : Store) (ip : Ptr) : Decidable (s.Valid ip) := inferInstanceAs (Decidable (_ ∧ _))

instance (s : Store) (op : Op) : Decidable (op.Ready s) := by
  cases op <;> unfold Ready <;> infer_instance

/-- The state after a call that its caller may make and that does not stop. -/
def step (sb : Super) (s : Store) (op : Op) : Option Store :=
  if op.Ready s then
    match op.exec sb s with
    | .ok r => some r.2
    | .error _ => none
  else none

end Op

/-- The references of a state, for each entry as many as it counts. -/
def Store.refs (s : Store) : Multiset Ref :=
  ∑ e, Multiset.replicate (s.inode e).ref ⟨e, (s.inode e).inum, (s.inode e).valid⟩

theorem Store.mem_refs {s : Store} {r : Ref} :
    r ∈ s.refs ↔ 0 < (s.inode r.ptr).ref ∧
    r = ⟨r.ptr, (s.inode r.ptr).inum, (s.inode r.ptr).valid⟩ := by
  unfold refs
  rw [mem_sum]
  constructor
  · rintro ⟨e, _, he⟩
    obtain ⟨h0, rfl⟩ := Multiset.mem_replicate.mp he
    exact ⟨Nat.pos_of_ne_zero h0, rfl⟩
  · rintro ⟨h0, he⟩
    exact ⟨r.ptr, Finset.mem_univ _, Multiset.mem_replicate.mpr ⟨Nat.ne_of_gt h0, he⟩⟩

theorem Store.holds_refs (h : Wf sb none s) : Holds sb s.refs s where
  wf := h
  count := by
    intro e
    unfold refs
    rw [← coe_countPAddMonoidHom, map_sum]
    simp only [coe_countPAddMonoidHom]
    rw [Finset.sum_eq_single e]
    · rw [countP_eq_card_filter, Multiset.filter_eq_self.mpr, card_replicate]
      intro r hr
      rw [eq_of_mem_replicate hr]
    · intro e' _ he
      refine Multiset.countP_eq_zero.mpr fun r hr => ?_
      rw [eq_of_mem_replicate hr]
      exact he
    · exact fun h' => absurd (Finset.mem_univ e) h'
  inum := by
    intro r hr
    have := (mem_refs.mp hr).2
    rw [this]
  loaded := by
    intro r hr hl
    rw [(mem_refs.mp hr).2] at hl
    exact hl

theorem Store.ref_mem (h0 : 0 < (s.inode ip).ref) :
    (⟨ip, (s.inode ip).inum, (s.inode ip).valid⟩ : Ref) ∈ s.refs := mem_refs.mpr ⟨h0, rfl⟩

theorem Store.valid_mem (hv : s.Valid ip) : (⟨ip, (s.inode ip).inum, true⟩ : Ref) ∈ s.refs := by
  have := ref_mem hv.1
  rwa [hv.2] at this

/-- One call keeps the state well formed, and does not free a free block. -/
theorem Op.exec_wf (h : Wf sb none s) {op : Op} (hop : op.Ready s) :
    wp (op.exec sb) (fun _ s' => Wf sb none s') NoDoubleFree s := by
  have hs := holds_refs h
  -- a reference of the state, in front
  have hfront : ∀ {r : Ref}, r ∈ s.refs → ∃ L, s.refs = r ::ₘ L := exists_cons_of_mem
  cases op with
  | iget inum =>
    exact wp_seq
      (iget_spec hs (fun _ => noDoubleFree.noInodes) fun _ s' h' _ _ => wp_pure.mpr h'.wf)
  | idup ip =>
    exact wp_seq (idup_spec (r := ⟨ip, _, _⟩) hs (ref_mem hop) fun s' h' _ _ => wp_pure.mpr h'.wf)
  | ilock ip =>
    obtain ⟨L, hL⟩ := hfront (ref_mem hop)
    exact ilock_holds (hL ▸ hs) fun s' h' => h'.wf
  | iunlock ip =>
    obtain ⟨L, hL⟩ := hfront (ref_mem hop)
    exact iunlock_spec (hL ▸ hs) (fun _ => noDoubleFree.iunlock) fun s' h' _ _ => h'.wf
  | iput ip =>
    obtain ⟨L, hL⟩ := hfront (ref_mem hop)
    exact iput_holds (hL ▸ hs) fun s' h' => h'.wf
  | ialloc type =>
    exact wp_seq (ialloc_spec hs hop noDoubleFree.noInodes (wp_pure.mpr h)
      fun _ _ s' _ _ _ h' _ => wp_pure.mpr h'.wf)
  | itrunc ip => exact itrunc_spec h hop (.inl rfl) fun s' h' _ _ _ _ _ _ _ => h'
  | readi ip copy off n => exact wp_seq (readi_spec h hop trivial fun _ _ _ => wp_pure.mpr h)
  | writei ip src copy off n =>
    exact wp_seq (writei_spec h hop.1 trivial (fun _ => wp_pure.mpr h)
      (fun _ _ s' _ _ _ _ _ _ h' _ _ => wp_pure.mpr h') hop.2)
  | dirlink dp name inum =>
    obtain ⟨L, hL⟩ := hfront (valid_mem hop)
    exact wp_seq (dirlink_holds (hL ▸ hs) fun _ s' h' => wp_pure.mpr h'.wf)
  | create cwd path type major minor =>
    exact wp_seq (create_holds (r := ⟨cwd, _, _⟩) hs (ref_mem hop.1) hop.2
      (fun s' h' => wp_pure.mpr h'.wf) fun _ _ s' h' => wp_pure.mpr h'.wf)
  | unlink cwd path =>
    exact wp_seq
      (sysUnlink_holds (r := ⟨cwd, _, _⟩) hs (ref_mem hop) fun _ s' h' => wp_pure.mpr h'.wf)

theorem Op.step_wf {s' : Store} {op : Op} (h : Wf sb none s) (hs : op.step sb s = some s') :
    Wf sb none s' := by
  unfold step at hs
  split at hs
  · rename_i hop
    have hw := exec_wf h hop
    unfold wp at hw
    split at hs
    · rename_i r hr
      rw [hr] at hw
      cases hs
      exact hw
    · cases hs
  · cases hs

/-! ## Disks -/

/-- The block that a slot of an inode on disk refers to; 0 if it refers to none. -/
def Store.refers (s : Store) (k : ℕ × Slot) : ℕ :=
  if (s.dinode k.1).type = .free then 0 else (s.dinode k.1).addr s.block k.2

/-- The data blocks marked in the bit map are those that allocated inodes refer to, and no block
is referred to twice. -/
structure BlocksOwned (sb : Super) (s : Store) : Prop where
  marked_iff : ∀ b, sb.nmeta ≤ b → b < sb.size → (s.bit b = true ↔ ∃ k, s.refers k = b)
  once : ∀ k k', s.refers k ≠ 0 → s.refers k = s.refers k' → k = k'

/-- A file system that has just been mounted: no entry of the inode table is in use, the blocks of
the inodes are data blocks, the blocks in front of them are marked, and no inode has a hole below
its size. -/
structure Mounted (sb : Super) (s : Store) : Prop where
  table : ∀ e, (s.inode e).ref = 0
  owned : BlocksOwned sb s
  data : ∀ k, s.refers k ≠ 0 → sb.nmeta ≤ s.refers k ∧ s.refers k < sb.size
  front : ∀ b, b < sb.nmeta → s.bit b = true
  nmeta : 0 < sb.nmeta
  fits : sb.size ≤ 2 ^ 32
  holes : ∀ i n, (s.dinode i).type ≠ .free → n * bSize < (s.dinode i).size →
    s.refers (i, .ofBlock n) ≠ 0
  small : ∀ i, (s.dinode i).type ≠ .free → (s.dinode i).size ≤ maxFile * bSize
  beyond : ∀ i, sb.ninodes ≤ i → (s.dinode i).type = .free

theorem Mounted.wf (h : Mounted sb s) : Wf sb none s := by
  have hv : ∀ e, ¬s.Valid e := fun e he => by
    have := he.1
    rw [h.table e] at this
    exact Nat.lt_irrefl 0 this
  have hu : s.Uniq := fun e _ he _ _ => by
    rw [h.table e] at he
    exact absurd he (Nat.lt_irrefl 0)
  have hdin : s.din = s.dinode := Store.Clean.din_eq (fun e he => absurd he (hv e)) hu
  have hown : s.own = s.refers := by
    funext k
    unfold Store.own Store.refers
    rw [hdin]
  refine ⟨hu, fun e he => absurd he (hv e), fun e _ he => absurd he (hv e), ?_, h.fits, ?_, ?_, ?_⟩
  · rw [hown]
    refine ⟨h.nmeta, h.data, h.owned.once, fun k hk => ?_, fun b h1 h2 h3 => ?_, h.front⟩
    · obtain ⟨h1, h2⟩ := h.data k hk
      exact (h.owned.marked_iff _ h1 h2).mpr ⟨k, rfl⟩
    · exact (h.owned.marked_iff b h1 h2).mp h3
  · rw [hown, hdin]
    exact fun i n _ => h.holes i n
  · rw [hdin]
    exact fun i _ => h.small i
  · rw [hdin]
    exact h.beyond

/-- Between the calls the slots are those of the inodes on disk. -/
theorem WfOn.own_eq {H : ℕ → Prop} (h : WfOn H sb none s) : s.own = s.refers := by
  funext k
  unfold Store.own Store.refers
  rw [h.din_eq]

theorem Wf.blocksOwned (h : Wf sb none s) : BlocksOwned sb s := by
  have hx := h.exact
  rw [h.own_eq] at hx
  refine ⟨fun b h1 h2 => ⟨hx.used b h1 h2, ?_⟩, hx.inj⟩
  rintro ⟨k, rfl⟩
  have := hx.pos
  exact hx.marked k (by omega)

/-- **Disk block ownership.** In every state of a run that starts from a mounted disk, the marked
data blocks are those that allocated inodes refer to, none of them twice, and no call panics
because it frees a free block. -/
theorem blocks_owned {s₀ : Store} (h₀ : Mounted sb s₀) {ops : List Op}
    (hrun : Run (Fires (Op.step sb)) s₀ ops s) :
    BlocksOwned sb s ∧ ∀ op : Op, op.Ready s → op.exec sb s ≠ .error .freeingFreeBlock := by
  have hw : Wf sb none s := hrun.inv_state h₀.wf fun _ _ _ h hs => Op.step_wf h hs
  refine ⟨hw.blocksOwned, fun op hop he => ?_⟩
  exact wp_error (Op.exec_wf hw hop) he rfl

/-- A small disk with an empty root directory: `.` and `..` in block 3. -/
def rootSuper : Super := ⟨20, 6, 3⟩

def rootDisk : Store where
  bit := fun b => decide (b < 4)
  block := fun b =>
    if b = 3 then overlay (overlay (fun _ => 0) 0 16 (direntBytes dot 1)) 16 16
      (direntBytes dotdot 1)
    else fun _ => 0
  dinode := fun i => if i = 1 then ⟨.dir, 0, 0, 1, 32, fun k => if k = 0 then 3 else 0⟩ else
    .fresh .free
  inode := fun _ => ⟨0, 0, false, false, .fresh .free⟩

theorem rootDisk_refers (k : ℕ × Slot) :
    rootDisk.refers k = if k = (1, .direct 0) then 3 else 0 := by
  obtain ⟨i, σ⟩ := k
  unfold Store.refers rootDisk
  by_cases hi : i = 1
  · subst hi
    cases σ with
    | direct k =>
      by_cases hk : k = 0
      · subst hk
        rfl
      · simp [Dinode.addr, hk]
    | ind => rfl
    | entry j => simp [Dinode.addr, nDirect]
  · simp [hi, Dinode.fresh]

theorem rootDisk_mounted : Mounted rootSuper rootDisk := by
  have hone : ∀ k, rootDisk.refers k ≠ 0 → k = (1, .direct 0) ∧ rootDisk.refers k = 3 := by
    intro k hk
    rw [rootDisk_refers] at hk ⊢
    by_cases h : k = (1, .direct 0)
    · exact ⟨h, if_pos h⟩
    · rw [if_neg h] at hk
      exact absurd rfl hk
  have htype : ∀ i, (rootDisk.dinode i).type ≠ .free → i = 1 := by
    intro i hi
    by_contra h
    exact hi (by simp [rootDisk, h, Dinode.fresh])
  refine ⟨fun _ => rfl, ⟨?_, ?_⟩, ?_, ?_, by decide, by decide, ?_, ?_, ?_⟩
  · intro b h1 h2
    have h1 : 3 ≤ b := h1
    constructor
    · intro hb
      have hb : b < 4 := by simpa [rootDisk] using hb
      exact ⟨(1, .direct 0), by rw [rootDisk_refers, if_pos rfl]; omega⟩
    · rintro ⟨k, rfl⟩
      rw [(hone k (by omega)).2]
      rfl
  · intro k k' hk he
    rw [(hone k hk).1, (hone k' (he ▸ hk)).1]
  · intro k hk
    rw [(hone k hk).2]
    decide
  · intro b hb
    have hb : b < 3 := hb
    simp only [rootDisk, decide_eq_true_eq]
    omega
  · intro i n hi hn
    obtain rfl := htype i hi
    have hn : n * 1024 < 32 := hn
    obtain rfl : n = 0 := by omega
    decide
  · intro i hi
    obtain rfl := htype i hi
    decide
  · intro i hi
    by_contra h
    have := htype i h
    have hi : 6 ≤ i := hi
    omega

/-- A file takes all blocks that are left, the indirect block included. -/
def fillOps : List Op :=
  [.iget 1, .create 0 [102] .file 0 0, .writei 1 (fun _ => 7) (fun _ => none) 0 20000, .iunlock 1,
    .iput 1]

theorem blocks_owned_full :
    ∃ s, Run (Fires (Op.step rootSuper)) rootDisk fillOps s ∧ (∀ b, b < 20 → s.bit b = true) ∧
      BlocksOwned rootSuper s := by
  obtain ⟨s, hs, hP⟩ := exec_any (Op.step rootSuper) rootDisk fillOps
    (fun s => (List.range 20).all fun b => s.bit b) (by decide +kernel)
  refine ⟨s, run_of_exec hs, fun b hb => ?_, (blocks_owned rootDisk_mounted (run_of_exec hs)).1⟩
  exact List.all_eq_true.mp hP b (List.mem_range.mpr hb)

end Xv6.Fs
