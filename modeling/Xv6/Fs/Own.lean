/-
  What a state of the file system says about inodes and blocks.

  The current value of an inode (`Store.din`) is its copy in the inode table if there is a valid
  one, and the inode on disk otherwise. A block of an inode is named by a slot: a direct address,
  the indirect block, or an entry of the indirect block; `Store.own` gives the block in every
  slot of every allocated inode. `Wf` says that the free map marks exactly those blocks, that no
  block is in two slots, and that no inode has a hole below its size; `WfOn` says the last of some
  inodes only.

  `Store.node` forgets the blocks: an inode with its content as a function from offsets to bytes.
-/
import Xv6.Fs.Disk
import Xv6.Lib.Marks

namespace Xv6.Fs

open Lib Function

/-! ## Numbers in blocks -/

theorem getUint_zero (j : ℕ) : getUint (fun _ => 0) j = 0 := rfl

theorem getUint_putUint {b : Block} {j v : ℕ} (hv : v < 2 ^ 32) :
    getUint (putUint b j v) j = v := by
  have h0 : 4 * j / 4 = j := by omega
  have h1 : (4 * j + 1) / 4 = j := by omega
  have h2 : (4 * j + 2) / 4 = j := by omega
  have h3 : (4 * j + 3) / 4 = j := by omega
  have m0 : 4 * j % 4 = 0 := by omega
  have m1 : (4 * j + 1) % 4 = 1 := by omega
  have m2 : (4 * j + 2) % 4 = 2 := by omega
  have m3 : (4 * j + 3) % 4 = 3 := by omega
  unfold getUint putUint
  rw [if_pos h0, if_pos h1, if_pos h2, if_pos h3, m0, m1, m2, m3]
  simp only [UInt8.toNat_ofNat']
  omega

theorem getUint_putUint_ne {b : Block} {j j' v : ℕ} (hj : j' ≠ j) :
    getUint (putUint b j v) j' = getUint b j' := by
  have h0 : 4 * j' / 4 ≠ j := by omega
  have h1 : (4 * j' + 1) / 4 ≠ j := by omega
  have h2 : (4 * j' + 2) / 4 ≠ j := by omega
  have h3 : (4 * j' + 3) / 4 ≠ j := by omega
  unfold getUint putUint
  rw [if_neg h0, if_neg h1, if_neg h2, if_neg h3]

/-! ## Slots -/

inductive Slot where
  | direct (k : ℕ)
  | ind
  | entry (j : ℕ)
  deriving DecidableEq

/-- The slot of block `bn` of a file. -/
def Slot.ofBlock (bn : ℕ) : Slot := if bn < nDirect then .direct bn else .entry (bn - nDirect)

theorem Slot.ofBlock_inj {n n' : ℕ} (h : Slot.ofBlock n = Slot.ofBlock n') : n = n' := by
  unfold Slot.ofBlock at h
  split at h <;> split at h
  · exact Slot.direct.inj h
  · cases h
  · cases h
  · have := Slot.entry.inj h
    omega

theorem Slot.ofBlock_ne_ind (n : ℕ) : Slot.ofBlock n ≠ .ind := by
  unfold Slot.ofBlock
  split <;> exact nofun

/-- The block in a slot; 0 if there is none. -/
def Dinode.addr (d : Dinode) (block : ℕ → Block) : Slot → ℕ
  | .direct k => if k < nDirect then d.addrs k else 0
  | .ind => d.addrs nDirect
  | .entry j =>
    if j < nIndirect ∧ d.addrs nDirect ≠ 0 then getUint (block (d.addrs nDirect)) j else 0

namespace Dinode

variable {d : Dinode} {block block' : ℕ → Block}

theorem addr_direct (k : ℕ) : d.addr block (.direct k) = if k < nDirect then d.addrs k else 0 := rfl

theorem addr_ind : d.addr block .ind = d.addrs nDirect := rfl

theorem addr_entry (j : ℕ) : d.addr block (.entry j) =
      if j < nIndirect ∧ d.addrs nDirect ≠ 0 then getUint (block (d.addrs nDirect)) j else 0 := rfl

theorem addr_congr {d' : Dinode} (ha : d'.addrs = d.addrs)
    (hb : d.addrs nDirect ≠ 0 → block' (d.addrs nDirect) = block (d.addrs nDirect)) :
    d'.addr block' = d.addr block := by
  funext σ
  cases σ with
  | direct k => rw [addr_direct, addr_direct, ha]
  | ind => rw [addr_ind, addr_ind, ha]
  | entry j =>
    rw [addr_entry, addr_entry, ha]
    by_cases h : j < nIndirect ∧ d.addrs nDirect ≠ 0
    · rw [if_pos h, if_pos h, hb h.2]
    · rw [if_neg h, if_neg h]

theorem addr_setDirect {d' : Dinode} {k a : ℕ} (hd : d'.addrs = update d.addrs k a)
    (hk : k < nDirect) : d'.addr block = update (d.addr block) (.direct k) a := by
  have hne : nDirect ≠ k := Nat.ne_of_gt hk
  funext σ
  cases σ with
  | direct k' =>
    by_cases h : k' = k
    · subst h
      rw [addr_direct, hd, if_pos hk, update_self, update_self]
    · rw [update_of_ne (by simpa using h), addr_direct, addr_direct, hd, update_of_ne h]
  | ind => rw [update_of_ne (by simp), addr_ind, addr_ind, hd, update_of_ne hne]
  | entry j =>
    rw [update_of_ne (by simp), addr_entry, addr_entry, hd, update_of_ne hne]

/-- A zeroed indirect block has no entries. -/
theorem addr_setInd {d' : Dinode} {a : ℕ} (hd : d'.addrs = update d.addrs nDirect a)
    (h0 : d.addrs nDirect = 0) (ha : block a = fun _ => 0) :
    d'.addr block = update (d.addr block) .ind a := by
  funext σ
  cases σ with
  | direct k =>
    rw [update_of_ne (by simp), addr_direct, addr_direct, hd]
    by_cases hk : k < nDirect
    · rw [if_pos hk, if_pos hk, update_of_ne (Nat.ne_of_lt hk)]
    · rw [if_neg hk, if_neg hk]
  | ind => rw [update_self, addr_ind, hd, update_self]
  | entry j =>
    rw [update_of_ne (by simp), addr_entry, addr_entry, hd, update_self, ha,
      getUint_zero, ite_self, h0, if_neg fun h => h.2 rfl]

theorem addr_setEntry {j a : ℕ} (hj : j < nIndirect) (h0 : d.addrs nDirect ≠ 0) (ha : a < 2 ^ 32) :
    d.addr (update block (d.addrs nDirect) (putUint (block (d.addrs nDirect)) j a)) =
      update (d.addr block) (.entry j) a := by
  funext σ
  cases σ with
  | direct k => rw [update_of_ne (by simp), addr_direct, addr_direct]
  | ind => rw [update_of_ne (by simp), addr_ind, addr_ind]
  | entry j' =>
    by_cases h : j' = j
    · subst h
      rw [update_self, addr_entry, if_pos ⟨hj, h0⟩, update_self, getUint_putUint ha]
    · rw [update_of_ne (by simpa using h), addr_entry, addr_entry, update_self,
        getUint_putUint_ne h]

theorem addr_fresh (type : IType) (σ : Slot) : (Dinode.fresh type).addr block σ = 0 := by
  cases σ with
  | direct k => exact ite_self 0
  | ind => rfl
  | entry j => exact if_neg fun h => h.2 rfl

end Dinode

/-! ## The current inodes -/

namespace Store

variable (s : Store)

/-- The valid entry of inode `i`. -/
def cached (i : ℕ) : Option Ptr :=
  (List.finRange nInode).find? fun e =>
    0 < (s.inode e).ref && (s.inode e).valid && (s.inode e).inum == i

def din (i : ℕ) : Dinode :=
  match s.cached i with
  | some e => (s.inode e).d
  | none => s.dinode i

/-- Entry `e` has the current value of its inode. -/
def Valid (e : Ptr) : Prop := 0 < (s.inode e).ref ∧ (s.inode e).valid = true

/-- An inode has at most one entry in use. -/
def Uniq : Prop :=
  ∀ e e', 0 < (s.inode e).ref → 0 < (s.inode e').ref → (s.inode e).inum = (s.inode e').inum → e = e'

/-- The block in a slot of an inode; 0 if there is none. -/
def own (k : ℕ × Slot) : ℕ :=
  if (s.din k.1).type = .free then 0 else (s.din k.1).addr s.block k.2

/-- The byte at an offset. -/
def byte (i o : ℕ) : UInt8 :=
  if s.own (i, .ofBlock (o / bSize)) = 0 then 0
  else s.block (s.own (i, .ofBlock (o / bSize))) (o % bSize)

end Store

/-- An inode with its content. -/
@[ext]
structure Node where
  type : IType
  major : BitVec 16
  minor : BitVec 16
  nlink : BitVec 16
  size : ℕ
  data : ℕ → UInt8

def Store.node (s : Store) (i : ℕ) : Option Node :=
  if (s.din i).type = .free then none
  else some ⟨(s.din i).type, (s.din i).major, (s.din i).minor, (s.din i).nlink, (s.din i).size,
    s.byte i⟩

/-- The state is well formed, and the inodes of `H` have no holes; the entry `x` may differ from its
inode on disk. -/
structure WfOn (H : ℕ → Prop) (sb : Super) (x : Option Ptr) (s : Store) : Prop where
  uniq : s.Uniq
  typed : ∀ e, s.Valid e → (s.inode e).d.type ≠ .free
  clean : ∀ e, x ≠ some e → s.Valid e → s.dinode (s.inode e).inum = (s.inode e).d
  exact : Exact sb.nmeta sb.size s.own s.bit
  fits : sb.size ≤ 2 ^ 32
  holes : ∀ i n, H i → (s.din i).type ≠ .free → n * bSize < (s.din i).size →
    s.own (i, .ofBlock n) ≠ 0
  small : ∀ i, H i → (s.din i).type ≠ .free → (s.din i).size ≤ maxFile * bSize
  beyond : ∀ i, sb.ninodes ≤ i → (s.din i).type = .free

/-- The state is well formed, and no inode has a hole. -/
abbrev Wf (sb : Super) (x : Option Ptr) (s : Store) : Prop := WfOn (fun _ => True) sb x s

namespace Store

variable {s s' : Store} {e ip : Ptr} {i : ℕ}

theorem cached_eq_some (hu : s.Uniq) : s.cached i = some e ↔ s.Valid e ∧ (s.inode e).inum = i := by
  unfold cached
  constructor
  · intro h
    have := List.find?_some h
    simp only [Bool.and_eq_true, decide_eq_true_eq, beq_iff_eq] at this
    exact ⟨this.1, this.2⟩
  · rintro ⟨⟨h1, h2⟩, h3⟩
    cases hf : (List.finRange nInode).find? fun e =>
        0 < (s.inode e).ref && (s.inode e).valid && (s.inode e).inum == i with
    | none =>
      have := List.find?_eq_none.mp hf e (List.mem_finRange e)
      simp [h1, h2, h3] at this
    | some e' =>
      have := List.find?_some hf
      simp only [Bool.and_eq_true, decide_eq_true_eq, beq_iff_eq] at this
      rw [hu e' e this.1.1 h1 (this.2.trans h3.symm)]

theorem cached_eq_none : s.cached i = none ↔ ∀ e, s.Valid e → (s.inode e).inum ≠ i := by
  unfold cached
  rw [List.find?_eq_none]
  constructor
  · intro h e hv hi
    have := h e (List.mem_finRange e)
    simp [hv.1, hv.2, hi] at this
  · intro h e _
    simp only [Bool.and_eq_true, decide_eq_true_eq, beq_iff_eq, not_and]
    exact fun hv => h e ⟨hv.1, hv.2⟩

theorem din_of_valid (hu : s.Uniq) (hv : s.Valid e) : s.din (s.inode e).inum = (s.inode e).d := by
  unfold din
  rw [(cached_eq_some hu).mpr ⟨hv, rfl⟩]

theorem din_of_not_cached (h : ∀ e, s.Valid e → (s.inode e).inum ≠ i) : s.din i = s.dinode i := by
  unfold din
  rw [cached_eq_none.mpr h]

/-- An inode is either in a valid entry or only on disk. -/
theorem din_cases (hu : s.Uniq) (i : ℕ) :
    (∃ e, s.Valid e ∧ (s.inode e).inum = i ∧ s.din i = (s.inode e).d) ∨
      (∀ e, s.Valid e → (s.inode e).inum ≠ i) ∧ s.din i = s.dinode i := by
  by_cases h : ∃ e, s.Valid e ∧ (s.inode e).inum = i
  · obtain ⟨e, hv, rfl⟩ := h
    exact .inl ⟨e, hv, rfl, din_of_valid hu hv⟩
  · have hn : ∀ e, s.Valid e → (s.inode e).inum ≠ i := fun e hv he => h ⟨e, hv, he⟩
    exact .inr ⟨hn, din_of_not_cached hn⟩

theorem own_congr (hd : s'.din = s.din) (hb : s'.block = s.block) : s'.own = s.own := by
  funext k
  unfold own
  rw [hd, hb]

theorem byte_congr (ho : s'.own = s.own) (hb : s'.block = s.block) : s'.byte = s.byte := by
  funext i o
  unfold byte
  rw [ho, hb]

theorem node_congr (hd : s'.din = s.din) (hb : s'.block = s.block) : s'.node = s.node := by
  funext i
  unfold node
  rw [hd, byte_congr (own_congr hd hb) hb]

end Store

end Xv6.Fs
