/-
  Allocation of blocks: what `balloc` and `bmap` do.

  `bmap` may put new blocks into slots of an inode that have none. It changes no slot that has a
  block and no byte of any file, since a new block is zero and an offset without a block reads
  as zero: the state grows (`Grown`).
-/
import Xv6.Fs.Own

namespace Xv6.Fs

open Lib Act Function Store Dinode

variable {H : ℕ → Prop} {sb : Super} {x : Option Ptr} {s s' s'' : Store} {ip : Ptr}
  {E : Stop → Prop}

/-! ## The inode table -/

/-- The entries differ in the copies of the inodes only. -/
def SameTable (s s' : Store) : Prop :=
  ∀ e, (s'.inode e).inum = (s.inode e).inum ∧ (s'.inode e).ref = (s.inode e).ref ∧
    (s'.inode e).valid = (s.inode e).valid ∧ (s'.inode e).locked = (s.inode e).locked

namespace SameTable

theorem refl (s : Store) : SameTable s s := fun _ => ⟨rfl, rfl, rfl, rfl⟩

theorem trans (h : SameTable s s') (h' : SameTable s' s'') : SameTable s s'' := fun e =>
  ⟨(h' e).1.trans (h e).1, (h' e).2.1.trans (h e).2.1, (h' e).2.2.1.trans (h e).2.2.1,
    (h' e).2.2.2.trans (h e).2.2.2⟩

theorem valid (h : SameTable s s') (e : Ptr) : s'.Valid e ↔ s.Valid e := by
  unfold Store.Valid
  rw [(h e).2.1, (h e).2.2.1]

theorem uniq (h : SameTable s s') (hu : s.Uniq) : s'.Uniq := by
  intro e e' h1 h2 h3
  rw [(h e).2.1] at h1
  rw [(h e').2.1] at h2
  rw [(h e).1, (h e').1] at h3
  exact hu e e' h1 h2 h3

theorem of_inode (h : s'.inode = s.inode) : SameTable s s' := fun e => by
  rw [h]
  exact ⟨rfl, rfl, rfl, rfl⟩

theorem setD (ip : Ptr) (f : Dinode → Dinode) : SameTable s (s.setD ip f) := by
  intro e
  unfold Store.setD Store.setInode
  dsimp only
  by_cases h : e = ip
  · subst h
    rw [update_self]
    exact ⟨rfl, rfl, rfl, rfl⟩
  · rw [update_of_ne h]
    exact ⟨rfl, rfl, rfl, rfl⟩

end SameTable

/-- One inode changes. -/
theorem din_update (hu : s.Uniq) (ht : SameTable s s') (hv : s.Valid ip)
    (hd : ∀ e, e ≠ ip → (s'.inode e).d = (s.inode e).d)
    (hdisk : ∀ i, i ≠ (s.inode ip).inum → s'.dinode i = s.dinode i) :
    s'.din = update s.din (s.inode ip).inum (s'.inode ip).d := by
  have hu' := ht.uniq hu
  funext i
  by_cases hi : i = (s.inode ip).inum
  · subst hi
    rw [update_self, ← (ht ip).1]
    exact din_of_valid hu' ((ht.valid ip).mpr hv)
  · rw [update_of_ne hi]
    rcases din_cases hu i with ⟨e, he, rfl, hdin⟩ | ⟨hn, hdin⟩
    · have hne : e ≠ ip := by
        rintro rfl
        exact hi rfl
      rw [hdin, ← hd e hne, ← (ht e).1]
      exact din_of_valid hu' ((ht.valid e).mpr he)
    · rw [hdin, ← hdisk i hi]
      refine din_of_not_cached fun e he => ?_
      rw [(ht e).1]
      exact hn e ((ht.valid e).mp he)

theorem setD_d (f : Dinode → Dinode) : ((s.setD ip f).inode ip).d = f (s.inode ip).d := by
  unfold Store.setD Store.setInode
  dsimp only
  rw [update_self]

theorem setD_d_ne (f : Dinode → Dinode) {e : Ptr} (he : e ≠ ip) :
    ((s.setD ip f).inode e).d = (s.inode e).d := by
  unfold Store.setD Store.setInode
  dsimp only
  rw [update_of_ne he]

theorem WfOn.dirty (h : WfOn H sb none s) (x : Option Ptr) : WfOn H sb x s :=
  { h with clean := fun e _ => h.clean e nofun }

/-! ## Growing -/

/-- What allocation of blocks for inode `ip` leaves. -/
structure Grown (H : ℕ → Prop) (sb : Super) (ip : Ptr) (s s' : Store) : Prop where
  wf : WfOn H sb (some ip) s'
  table : SameTable s s'
  disk : s'.dinode = s.dinode
  others : ∀ e, e ≠ ip → (s'.inode e).d = (s.inode e).d
  node : s'.node = s.node
  keep : ∀ k, s.own k ≠ 0 → s'.own k = s.own k

theorem Grown.refl (h : WfOn H sb (some ip) s) : Grown H sb ip s s :=
  ⟨h, .refl s, rfl, fun _ _ => rfl, rfl, fun _ _ => rfl⟩

theorem Grown.trans (h : Grown H sb ip s s') (h' : Grown H sb ip s' s'') : Grown H sb ip s s'' where
  wf := h'.wf
  table := h.table.trans h'.table
  disk := h'.disk.trans h.disk
  others := fun e he => (h'.others e he).trans (h.others e he)
  node := h'.node.trans h.node
  keep := fun k hk => by
    have h1 := h.keep k hk
    rw [h'.keep k (h1 ▸ hk), h1]

theorem Grown.valid (h : Grown H sb ip s s') (hv : s.Valid ip) : s'.Valid ip :=
  (h.table.valid ip).mpr hv

/-- The node of an inode is given by its fields and bytes. -/
theorem node_of_fields {i : ℕ} (ht : (s'.din i).type = (s.din i).type)
    (hma : (s'.din i).major = (s.din i).major) (hmi : (s'.din i).minor = (s.din i).minor)
    (hn : (s'.din i).nlink = (s.din i).nlink) (hs : (s'.din i).size = (s.din i).size)
    (hb : s'.byte i = s.byte i) : s'.node i = s.node i := by
  unfold Store.node
  rw [ht, hma, hmi, hn, hs, hb]

/-- A block that is in nobody's slot is put into a slot. -/
theorem WfOn.add (h : WfOn H sb (some ip) s) (hv : s.Valid ip) {σ : Slot} {b : ℕ} {a : ℕ → ℕ}
    (hσ : s.own ((s.inode ip).inum, σ) = 0) (hb : s.bit b = false) (hlt : b < sb.size)
    (ht : SameTable s s') (hdisk : s'.dinode = s.dinode)
    (hothers : ∀ e, e ≠ ip → (s'.inode e).d = (s.inode e).d)
    (hd : (s'.inode ip).d = { (s.inode ip).d with addrs := a })
    (hbit : s'.bit = update s.bit b true)
    (hown : s'.own = update s.own ((s.inode ip).inum, σ) b)
    (hzero : s'.block b = fun _ => 0)
    (hblock : ∀ i n, s.own (i, .ofBlock n) ≠ 0 →
      s'.block (s.own (i, .ofBlock n)) = s.block (s.own (i, .ofBlock n))) :
    Grown H sb ip s s' := by
  have hdin : s'.din = update s.din (s.inode ip).inum { (s.inode ip).d with addrs := a } := by
    rw [din_update h.uniq ht hv hothers fun i _ => by rw [hdisk], hd]
  -- the fields that no slot concerns stay
  have hfield : ∀ i, (s'.din i).type = (s.din i).type ∧ (s'.din i).major = (s.din i).major ∧
      (s'.din i).minor = (s.din i).minor ∧ (s'.din i).nlink = (s.din i).nlink ∧
      (s'.din i).size = (s.din i).size := by
    intro i
    rw [hdin]
    by_cases hi : i = (s.inode ip).inum
    · rw [hi, update_self, din_of_valid h.uniq hv]
      exact ⟨rfl, rfl, rfl, rfl, rfl⟩
    · rw [update_of_ne hi]
      exact ⟨rfl, rfl, rfl, rfl, rfl⟩
  have hkeep : ∀ k, s.own k ≠ 0 → s'.own k = s.own k := by
    intro k hk
    rw [hown, update_of_ne]
    rintro rfl
    exact hk hσ
  have hbyte : s'.byte = s.byte := by
    funext i o
    unfold Store.byte
    by_cases hk : (i, Slot.ofBlock (o / bSize)) = ((s.inode ip).inum, σ)
    · rw [hk, hσ, if_pos rfl, hown, update_self, if_neg (h.exact.ne_of_clear hb), hzero]
    · by_cases h0 : s.own (i, .ofBlock (o / bSize)) = 0
      · rw [hown, update_of_ne hk, if_pos h0, if_pos h0]
      · rw [hkeep _ h0, if_neg h0, if_neg h0, hblock _ _ h0]
  refine ⟨⟨ht.uniq h.uniq, ?_, ?_, ?_, h.fits, ?_, ?_, ?_⟩, ht, hdisk, hothers, ?_, hkeep⟩
  · intro e he
    have he' := (ht.valid e).mp he
    by_cases hip : e = ip
    · subst hip
      rw [hd]
      exact h.typed e he'
    · rw [hothers e hip]
      exact h.typed e he'
  · intro e he hve
    have hip : e ≠ ip := fun hip => he (hip ▸ rfl)
    rw [hdisk, (ht e).1, hothers e hip]
    exact h.clean e he ((ht.valid e).mp hve)
  · rw [hown, hbit]
    exact h.exact.add hσ hb hlt
  · intro i n hH hi hn
    rw [(hfield i).1] at hi
    rw [(hfield i).2.2.2.2] at hn
    have h0 := h.holes i n hH hi hn
    rw [hkeep _ h0]
    exact h0
  · intro i hH hi
    rw [(hfield i).1] at hi
    rw [(hfield i).2.2.2.2]
    exact h.small i hH hi
  · intro i hi
    rw [(hfield i).1]
    exact h.beyond i hi
  · funext i
    obtain ⟨f1, f2, f3, f4, f5⟩ := hfield i
    exact node_of_fields f1 f2 f3 f4 f5 (by rw [hbyte])

/-! ## Functions -/

/-- The state after `balloc` has returned `b`. -/
def Store.claim (s : Store) (b : ℕ) : Store :=
  { s with bit := update s.bit b true, block := update s.block b fun _ => 0 }

theorem balloc_spec {Q : ℕ → Store → Prop}
    (hsome : ∀ b, s.bit b = false → b < sb.size → Q b (s.claim b))
    (hnone : (∀ b, b < sb.size → s.bit b = true) → Q 0 s) : wp (balloc sb) Q E s := by
  refine wp_read ?_
  split
  · rename_i b hf
    have h1 := List.find?_some hf
    have h2 := List.mem_of_find?_eq_some hf
    rw [Bool.not_eq_true'] at h1
    exact hsome b h1 (List.mem_range.mp h2)
  · rename_i hf
    refine hnone fun b hb => ?_
    have := List.find?_eq_none.mp hf b (List.mem_range.mpr hb)
    simpa using this

/-- One slot of one inode changes. -/
theorem own_update {i b : ℕ} {σ : Slot} {d : Dinode} (hdin : s'.din = update s.din i d)
    (hlive : (s.din i).type ≠ .free) (htype : d.type = (s.din i).type)
    (haddr : d.addr s'.block = update ((s.din i).addr s.block) σ b)
    (hblock : ∀ i', i' ≠ i → s.own (i', .ind) ≠ 0 →
      s'.block (s.own (i', .ind)) = s.block (s.own (i', .ind))) :
        s'.own = update s.own (i, σ) b := by
  funext k
  obtain ⟨i', σ'⟩ := k
  by_cases hi : i' = i
  · subst hi
    have h1 : s'.own (i', σ') = update ((s.din i').addr s.block) σ b σ' := by
      unfold Store.own
      rw [hdin, update_self, htype, if_neg hlive, haddr]
    rw [h1]
    by_cases hσ : σ' = σ
    · rw [hσ, update_self, update_self]
    · rw [update_of_ne hσ, update_of_ne (by simpa using hσ)]
      exact (if_neg hlive).symm
  · rw [update_of_ne (fun h => hi (Prod.ext_iff.mp h).1)]
    unfold Store.own
    rw [hdin, update_of_ne hi]
    by_cases hl : (s.din i').type = .free
    · rw [if_pos hl, if_pos hl]
    · rw [if_neg hl, if_neg hl]
      refine congrFun (addr_congr rfl fun h0 => ?_) σ'
      have hown : s.own (i', .ind) = (s.din i').addrs nDirect := if_neg hl
      have := hblock i' hi (hown ▸ h0)
      rw [hown] at this
      exact this

theorem own_of_valid (h : WfOn H sb x s) (hv : s.Valid ip) (σ : Slot) :
    s.own ((s.inode ip).inum, σ) = (s.inode ip).d.addr s.block σ := by
  unfold Store.own
  rw [din_of_valid h.uniq hv]
  exact if_neg (h.typed ip hv)

/-- The slot of `addrs[k]`. -/
def slotOfAddr (k : ℕ) : Slot := if k < nDirect then .direct k else .ind

theorem own_slotOfAddr (h : WfOn H sb x s) (hv : s.Valid ip) {k : ℕ} (hk : k ≤ nDirect) :
    s.own ((s.inode ip).inum, slotOfAddr k) = (s.inode ip).d.addrs k := by
  rw [own_of_valid h hv]
  unfold slotOfAddr
  split
  · next hlt =>
    rw [addr_direct, if_pos hlt]
  · next hlt =>
    rw [addr_ind, Nat.le_antisymm hk (Nat.le_of_not_lt hlt)]

/-- `ip->addrs[k] = addr` after `balloc`. -/
theorem WfOn.claimSlot (h : WfOn H sb (some ip) s) (hv : s.Valid ip) {k b : ℕ} (hk : k ≤ nDirect)
    (h0 : (s.inode ip).d.addrs k = 0) (hb : s.bit b = false) (hlt : b < sb.size) :
    Grown H sb ip s ((s.claim b).setAddr ip k b) ∧ ((s.claim b).setAddr ip k b).own =
      update s.own ((s.inode ip).inum, slotOfAddr k) b := by
  have hne := h.exact.own_ne_of_clear hb
  generalize hs1 : s.claim b = s1
  have hblk : s1.block = update s.block b fun _ => 0 := by rw [← hs1]; rfl
  have hbit : s1.bit = update s.bit b true := by rw [← hs1]; rfl
  have hino : s1.inode = s.inode := by rw [← hs1]; rfl
  have hdsk : s1.dinode = s.dinode := by rw [← hs1]; rfl
  have hblock : ∀ k', s.own k' ≠ 0 → s1.block (s.own k') = s.block (s.own k') := by
    intro k' _
    rw [hblk, update_of_ne (hne k')]
  have ht : SameTable s (s1.setAddr ip k b) := (SameTable.of_inode hino).trans (.setD ip _)
  have hd : ((s1.setAddr ip k b).inode ip).d =
      { (s.inode ip).d with addrs := update (s.inode ip).d.addrs k b } := by
    unfold Store.setAddr
    rw [setD_d, hino]
  have hothers : ∀ e, e ≠ ip → ((s1.setAddr ip k b).inode e).d = (s.inode e).d := by
    intro e he
    unfold Store.setAddr
    rw [setD_d_ne _ he, hino]
  have hdin : (s1.setAddr ip k b).din = update s.din (s.inode ip).inum
      { (s.inode ip).d with addrs := update (s.inode ip).d.addrs k b } := by
    rw [din_update h.uniq ht hv hothers fun i _ => by rw [← hdsk]; rfl, hd]
  have hdv := din_of_valid h.uniq hv
  -- the zeroed block does not change what the old addresses say
  have haddr1 : (s.inode ip).d.addr s1.block = (s.inode ip).d.addr s.block := by
    refine addr_congr rfl fun hi => ?_
    have := hblock ((s.inode ip).inum, .ind) (by rw [own_of_valid h hv]; exact hi)
    rw [own_of_valid h hv] at this
    exact this
  have hown' : (s1.setAddr ip k b).own = update s.own ((s.inode ip).inum, slotOfAddr k) b := by
    refine own_update hdin (hdv ▸ h.typed ip hv) (by rw [hdv]) ?_ fun i' _ hi' => hblock _ hi'
    rw [hdv, ← haddr1]
    unfold slotOfAddr
    split
    · next hkd =>
      exact addr_setDirect rfl hkd
    · next hkd =>
      obtain rfl : k = nDirect := Nat.le_antisymm hk (Nat.le_of_not_lt hkd)
      refine addr_setInd rfl h0 ?_
      show s1.block b = _
      rw [hblk, update_self]
  refine ⟨h.add hv ((own_slotOfAddr h hv hk).trans h0) hb hlt ht (by rw [← hdsk]; rfl) hothers hd ?_
    hown' ?_ ?_, hown'⟩
  · rw [← hbit]
    rfl
  · show s1.block b = _
    rw [hblk, update_self]
  · exact fun i n hi => hblock _ hi

theorem bmapSlot_spec (h : WfOn H sb (some ip) s) (hv : s.Valid ip) {k : ℕ} (hk : k ≤ nDirect)
    {Q : ℕ → Store → Prop} (hQ : ∀ addr s', Grown H sb ip s s' →
      (addr ≠ 0 → s'.own ((s.inode ip).inum, slotOfAddr k) = addr) →
      (addr = 0 → ∀ b, b < sb.size → s'.bit b = true) →
      (s.own ((s.inode ip).inum, slotOfAddr k) ≠ 0 → addr ≠ 0 ∧ s' = s) → Q addr s') :
    wp (bmapSlot sb ip k) Q E s := by
  have hown := own_slotOfAddr h hv hk
  refine wp_read ?_
  split
  · rename_i h0
    exact hQ _ _ (.refl h) (fun _ => hown) (fun h' => absurd h' h0) fun _ => ⟨h0, rfl⟩
  · rename_i h0
    have h0 : (s.inode ip).d.addrs k = 0 := not_not.mp h0
    refine wp_seq (balloc_spec (fun b hb hlt => ?_) fun hfull => ?_)
    · have hb0 := h.exact.ne_of_clear hb
      rw [if_neg hb0]
      refine wp_seq (wp_modify.mpr (wp_pure.mpr ?_))
      obtain ⟨hg, hown'⟩ := h.claimSlot hv hk h0 hb hlt
      refine hQ b _ hg (fun _ => ?_) (fun h' => absurd h' hb0) fun h' => absurd (hown.trans h0) h'
      rw [hown', update_self]
    · rw [if_pos rfl]
      exact wp_pure.mpr (hQ 0 s (.refl h) (fun h' => absurd rfl h') (fun _ => hfull)
        fun h' => absurd (hown.trans h0) h')

theorem own_entry (h : WfOn H sb x s) (hv : s.Valid ip) {ind j : ℕ} (hj : j < nIndirect)
    (hind : s.own ((s.inode ip).inum, .ind) = ind) (hind0 : ind ≠ 0) :
    s.own ((s.inode ip).inum, .entry j) = getUint (s.block ind) j := by
  have hind' : (s.inode ip).d.addrs nDirect = ind := by
    rw [← hind, own_of_valid h hv]
    rfl
  rw [own_of_valid h hv, addr_entry, hind', if_pos ⟨hj, hind0⟩]

/-- `a[bn] = addr` after `balloc`. -/
theorem WfOn.claimEntry (h : WfOn H sb (some ip) s) (hv : s.Valid ip) {ind j b : ℕ}
    (hj : j < nIndirect)
    (hind : s.own ((s.inode ip).inum, .ind) = ind) (hind0 : ind ≠ 0)
    (h0 : getUint (s.block ind) j = 0)
    (hb : s.bit b = false) (hlt : b < sb.size) :
    Grown H sb ip s ((s.claim b).setBlock ind fun a => putUint a j b) ∧
      ((s.claim b).setBlock ind fun a => putUint a j b).own =
        update s.own ((s.inode ip).inum, .entry j) b := by
  have hind' : (s.inode ip).d.addrs nDirect = ind := by
    rw [← hind, own_of_valid h hv]
    rfl
  have hne := h.exact.own_ne_of_clear hb
  have hindb : ind ≠ b := hind ▸ hne _
  generalize hs1 : s.claim b = s1
  have hblk : s1.block = update s.block b fun _ => 0 := by rw [← hs1]; rfl
  have hbit : s1.bit = update s.bit b true := by rw [← hs1]; rfl
  have hino : s1.inode = s.inode := by rw [← hs1]; rfl
  have hdsk : s1.dinode = s.dinode := by rw [← hs1]; rfl
  generalize hs2 : (s1.setBlock ind fun a => putUint a j b) = s2
  have hblk2 : s2.block = update s1.block ind (putUint (s1.block ind) j b) := by
    rw [← hs2]
    rfl
  have hino2 : s2.inode = s.inode := by
    rw [← hs2, ← hino]
    rfl
  have hdsk2 : s2.dinode = s.dinode := by
    rw [← hs2, ← hdsk]
    rfl
  have hblock1 : ∀ k', s.own k' ≠ 0 → s1.block (s.own k') = s.block (s.own k') := by
    intro k' _
    rw [hblk, update_of_ne (hne k')]
  -- only the indirect block of this inode is written
  have hblock : ∀ k', k' ≠ ((s.inode ip).inum, Slot.ind) → s.own k' ≠ 0 →
      s2.block (s.own k') = s.block (s.own k') := by
    intro k' hk' hk0
    have hki : s.own k' ≠ ind := fun he => hk' (h.exact.inj _ _ hk0 (he.trans hind.symm))
    rw [hblk2, update_of_ne hki, hblock1 k' hk0]
  have ht : SameTable s s2 := SameTable.of_inode hino2
  have hdv := din_of_valid h.uniq hv
  have hdin : s2.din = update s.din (s.inode ip).inum (s.inode ip).d := by
    rw [din_update h.uniq ht hv (fun e _ => by rw [hino2]) fun i _ => by rw [hdsk2], hino2]
  have haddr1 : (s.inode ip).d.addr s1.block = (s.inode ip).d.addr s.block := by
    refine addr_congr rfl fun hi => ?_
    rw [hind', hblk, update_of_ne hindb]
  have hown' : s2.own = update s.own ((s.inode ip).inum, .entry j) b := by
    refine own_update hdin (hdv ▸ h.typed ip hv) (by rw [hdv]) ?_
      fun i' hi' h0' => hblock _ (fun he => hi' (Prod.ext_iff.mp he).1) h0'
    rw [hdv, ← haddr1, hblk2, ← hind']
    exact addr_setEntry hj (hind' ▸ hind0) (Nat.lt_of_lt_of_le hlt h.fits)
  refine ⟨h.add hv ((own_entry h hv hj hind hind0).trans h0) hb hlt ht hdsk2
    (fun e _ => by rw [hino2])
    (a := (s.inode ip).d.addrs) (by rw [hino2]) ?_ hown' ?_ ?_, hown'⟩
  · rw [← hbit, ← hs2]
    rfl
  · rw [hblk2, update_of_ne (Ne.symm hindb), hblk, update_self]
  · intro i n hi
    exact hblock _ (fun he => Slot.ofBlock_ne_ind n (Prod.ext_iff.mp he).2) hi

theorem bmapEntry_spec (h : WfOn H sb (some ip) s) (hv : s.Valid ip) {ind j : ℕ}
    (hj : j < nIndirect)
    (hind : s.own ((s.inode ip).inum, .ind) = ind) (hind0 : ind ≠ 0) {Q : ℕ → Store → Prop}
    (hQ : ∀ addr s', Grown H sb ip s s' → (addr ≠ 0 → s'.own ((s.inode ip).inum, .entry j) = addr) →
      (addr = 0 → ∀ b, b < sb.size → s'.bit b = true) →
      (s.own ((s.inode ip).inum, .entry j) ≠ 0 → addr ≠ 0 ∧ s' = s) → Q addr s') :
    wp (bmapEntry sb ind j) Q E s := by
  have hown := own_entry h hv hj hind hind0
  refine wp_read ?_
  split
  · rename_i h0
    exact hQ _ _ (.refl h) (fun _ => hown) (fun h' => absurd h' h0) fun _ => ⟨h0, rfl⟩
  · rename_i h0
    have h0 : getUint (s.block ind) j = 0 := not_not.mp h0
    refine wp_seq (balloc_spec (fun b hb hlt => ?_) fun hfull => ?_)
    · have hb0 := h.exact.ne_of_clear hb
      rw [if_neg hb0]
      refine wp_seq (wp_modify.mpr (wp_pure.mpr ?_))
      obtain ⟨hg, hown'⟩ := h.claimEntry hv hj hind hind0 h0 hb hlt
      refine hQ b _ hg (fun _ => ?_) (fun h' => absurd h' hb0) fun h' => absurd (hown.trans h0) h'
      rw [hown', update_self]
    · rw [if_pos rfl]
      exact wp_pure.mpr (hQ 0 s (.refl h) (fun h' => absurd rfl h') (fun _ => hfull)
        fun h' => absurd (hown.trans h0) h')

/-- `bmap`: the block in the slot, which may be new; 0 only if the disk is full. -/
theorem bmap_spec (h : WfOn H sb (some ip) s) (hv : s.Valid ip) {bn : ℕ} (hbn : bn < maxFile)
    {Q : ℕ → Store → Prop} (hQ : ∀ addr s', Grown H sb ip s s' →
      (addr ≠ 0 → s'.own ((s.inode ip).inum, .ofBlock bn) = addr) →
      (addr = 0 → ∀ b, b < sb.size → s'.bit b = true) →
      (s.own ((s.inode ip).inum, .ofBlock bn) ≠ 0 → addr ≠ 0 ∧ s' = s) → Q addr s') :
    wp (bmap sb ip bn) Q E s := by
  unfold bmap
  by_cases hlt : bn < nDirect
  · rw [if_pos hlt]
    have hslot : Slot.ofBlock bn = slotOfAddr bn := by
      unfold Slot.ofBlock slotOfAddr
      rw [if_pos hlt, if_pos hlt]
    rw [hslot] at hQ
    exact bmapSlot_spec h hv (Nat.le_of_lt hlt) hQ
  · have hj : bn - nDirect < nIndirect := by
      unfold maxFile at hbn
      omega
    have hslot : Slot.ofBlock bn = .entry (bn - nDirect) := by
      unfold Slot.ofBlock
      rw [if_neg hlt]
    have hsi : slotOfAddr nDirect = .ind := rfl
    rw [if_neg hlt, if_pos hj]
    rw [hslot] at hQ
    refine wp_seq (bmapSlot_spec h hv (Nat.le_refl _) fun ind s1 hg1 hind hfull hsame => ?_)
    rw [hsi] at hind hsame
    split
    · next h0 =>
      refine wp_pure.mpr (hQ 0 s1 hg1 (fun h' => absurd rfl h') (fun _ => hfull h0) fun h' => ?_)
      -- an entry in use has an indirect block
      refine absurd h0 (hsame fun hi => h' ?_).1
      rw [own_of_valid h hv] at hi ⊢
      rw [addr_entry]
      exact if_neg fun hc => hc.2 hi
    · next h0 =>
      have hv1 := hg1.valid hv
      have hin : (s1.inode ip).inum = (s.inode ip).inum := (hg1.table ip).1
      refine bmapEntry_spec hg1.wf hv1 hj (hin ▸ hind h0) h0 fun addr s2 hg2 ha hf2 hsame2 => ?_
      refine hQ addr s2 (hg1.trans hg2) (hin ▸ ha) hf2 fun h' => ?_
      have hi : s.own ((s.inode ip).inum, .ind) ≠ 0 := by
        intro hi
        refine h' ?_
        rw [own_of_valid h hv] at hi ⊢
        rw [addr_entry]
        exact if_neg fun hc => hc.2 hi
      obtain ⟨_, rfl⟩ := hsame hi
      exact hsame2 h'

end Xv6.Fs
