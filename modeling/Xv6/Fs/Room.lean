/-
  Room on the disk: when a write finds the blocks that it needs.

  A block that `bmap` allocates comes out of the free map and goes into a slot that had none. So the
  number of free blocks and the number of slots without a block go down together (`Spent`), and a
  call that starts with as many free blocks as it has slots to fill does not run out of them.
-/
import Xv6.Fs.ContentSpec

namespace Xv6.Fs

open Lib Act Function Finset

variable {H : ℕ → Prop} {sb : Super} {x : Option Ptr} {s s' s'' : Store} {ip : Ptr} {i : ℕ}
  {S : Finset Slot} {E : Stop → Prop}

/-- The number of blocks that are not marked. -/
def Store.free (s : Store) (sb : Super) : ℕ :=
  ((Finset.range sb.size).filter fun b => s.bit b = false).card

/-- How many of the slots `S` of inode `i` have no block. -/
def Store.lacks (s : Store) (i : ℕ) (S : Finset Slot) : ℕ :=
  (S.filter fun σ => s.own (i, σ) = 0).card

/-- Blocks that are taken go into slots of `S`. -/
def Spent (sb : Super) (i : ℕ) (S : Finset Slot) (s s' : Store) : Prop :=
  s'.free sb + s.lacks i S = s.free sb + s'.lacks i S

theorem Spent.refl (s : Store) : Spent sb i S s s := rfl

theorem Spent.trans (h : Spent sb i S s s') (h' : Spent sb i S s' s'') : Spent sb i S s s'' := by
  unfold Spent at *
  omega

theorem Spent.of_same (hbit : s'.bit = s.bit) (hown : s'.own = s.own) : Spent sb i S s s' := by
  unfold Spent Store.free Store.lacks
  rw [hbit, hown]

theorem Spent.add {σ : Slot} {b : ℕ} (hσ : σ ∈ S) (h0 : s.own (i, σ) = 0) (hb : s.bit b = false)
    (hlt : b < sb.size) (hb0 : b ≠ 0) (hbit : s'.bit = update s.bit b true)
    (hown : s'.own = update s.own (i, σ) b) : Spent sb i S s s' := by
  have hfree : ((Finset.range sb.size).filter fun c => s'.bit c = false) =
      ((Finset.range sb.size).filter fun c => s.bit c = false).erase b := by
    ext c
    rw [hbit, mem_erase, mem_filter, mem_filter]
    by_cases hc : c = b
    · rw [hc, update_self]
      simp
    · rw [update_of_ne hc]
      simp [hc]
  have hlacks : (S.filter fun τ => s'.own (i, τ) = 0) = (S.filter fun τ => s.own (i, τ) = 0).erase
      σ := by
    ext τ
    rw [hown, mem_erase, mem_filter, mem_filter]
    by_cases hc : τ = σ
    · rw [hc, update_self]
      simp [hb0]
    · rw [update_of_ne (by simpa using hc)]
      simp [hc]
  have hbm : b ∈ (Finset.range sb.size).filter fun c => s.bit c = false :=
    Finset.mem_filter.mpr ⟨Finset.mem_range.mpr hlt, hb⟩
  have hσm : σ ∈ S.filter fun τ => s.own (i, τ) = 0 := Finset.mem_filter.mpr ⟨hσ, h0⟩
  have h1 := card_erase_add_one hbm
  have h2 := card_erase_add_one hσm
  unfold Spent Store.free Store.lacks
  rw [hfree, hlacks]
  omega

/-- With enough free blocks at the start, a slot without a block is not left on a full disk. -/
theorem Spent.not_full (h : Spent sb i S s s') (hroom : s.lacks i S ≤ s.free sb) {σ : Slot}
    (hσ : σ ∈ S)
    (h0 : s'.own (i, σ) = 0) : ¬∀ b, b < sb.size → s'.bit b = true := by
  intro hfull
  have hfree : s'.free sb = 0 := by
    refine Finset.card_eq_zero.mpr (Finset.filter_eq_empty_iff.mpr fun b hb => ?_)
    rw [hfull b (Finset.mem_range.mp hb)]
    decide
  have hpos : 0 < s'.lacks i S := Finset.card_pos.mpr ⟨σ, Finset.mem_filter.mpr ⟨hσ, h0⟩⟩
  unfold Spent at h
  omega

/-! ## `bmap` -/

theorem bmapSlot_room (h : WfOn H sb (some ip) s) (hv : s.Valid ip) {k : ℕ} (hk : k ≤ nDirect)
    (hS : slotOfAddr k ∈ S) :
    wp (bmapSlot sb ip k) (fun addr s' => Spent sb (s.inode ip).inum S s s' ∧
      (addr = 0 → s'.own ((s.inode ip).inum, slotOfAddr k) = 0)) E s := by
  have hown := own_slotOfAddr h hv hk
  refine wp_read ?_
  split
  · rename_i h0
    exact ⟨.refl s, fun h' => absurd h' h0⟩
  · rename_i h0
    have h0 : (s.inode ip).d.addrs k = 0 := not_not.mp h0
    refine wp_seq (balloc_spec (fun b hb hlt => ?_) fun _ => ?_)
    · have hb0 := h.exact.ne_of_clear hb
      rw [if_neg hb0]
      refine wp_seq (wp_modify.mpr (wp_pure.mpr ⟨?_, fun h' => absurd h' hb0⟩))
      exact .add hS (hown.trans h0) hb hlt hb0 rfl (h.claimSlot hv hk h0 hb hlt).2
    · rw [if_pos rfl]
      exact wp_pure.mpr ⟨.refl s, fun _ => hown.trans h0⟩

theorem bmapEntry_room (h : WfOn H sb (some ip) s) (hv : s.Valid ip) {ind j : ℕ}
    (hj : j < nIndirect)
    (hind : s.own ((s.inode ip).inum, .ind) = ind) (hind0 : ind ≠ 0) (hS : Slot.entry j ∈ S) :
    wp (bmapEntry sb ind j) (fun addr s' => Spent sb (s.inode ip).inum S s s' ∧
      (addr = 0 → s'.own ((s.inode ip).inum, .entry j) = 0)) E s := by
  have hown := own_entry h hv hj hind hind0
  refine wp_read ?_
  split
  · rename_i h0
    exact ⟨.refl s, fun h' => absurd h' h0⟩
  · rename_i h0
    have h0 : getUint (s.block ind) j = 0 := not_not.mp h0
    refine wp_seq (balloc_spec (fun b hb hlt => ?_) fun _ => ?_)
    · have hb0 := h.exact.ne_of_clear hb
      rw [if_neg hb0]
      refine wp_seq (wp_modify.mpr (wp_pure.mpr ⟨?_, fun h' => absurd h' hb0⟩))
      exact .add hS (hown.trans h0) hb hlt hb0 rfl (h.claimEntry hv hj hind hind0 h0 hb hlt).2
    · rw [if_pos rfl]
      exact wp_pure.mpr ⟨.refl s, fun _ => hown.trans h0⟩

/-- `S` has the slots that `bmap` fills for block `bn`. -/
def Serves (S : Finset Slot) (bn : ℕ) : Prop := Slot.ofBlock bn ∈ S ∧ (nDirect ≤ bn → Slot.ind ∈ S)

theorem bmap_room (h : WfOn H sb (some ip) s) (hv : s.Valid ip) {bn : ℕ} (hbn : bn < maxFile)
    (hS : Serves S bn) : wp (bmap sb ip bn) (fun addr s' => Spent sb (s.inode ip).inum S s s' ∧
      (addr = 0 → ∃ σ ∈ S, s'.own ((s.inode ip).inum, σ) = 0)) E s := by
  unfold bmap
  by_cases hlt : bn < nDirect
  · have hslot : slotOfAddr bn = Slot.ofBlock bn := by
      unfold Slot.ofBlock slotOfAddr
      rw [if_pos hlt, if_pos hlt]
    have hmem : slotOfAddr bn ∈ S := hslot ▸ hS.1
    rw [if_pos hlt]
    exact wp_mono (bmapSlot_room h hv (Nat.le_of_lt hlt) hmem)
      (fun addr s' hr => ⟨hr.1, fun h0 => ⟨_, hmem, hr.2 h0⟩⟩) fun _ he => he
  · have hj : bn - nDirect < nIndirect := by
      unfold maxFile at hbn
      omega
    have hslot : Slot.ofBlock bn = .entry (bn - nDirect) := if_neg hlt
    have hind := hS.2 (Nat.le_of_not_lt hlt)
    rw [if_neg hlt, if_pos hj]
    refine wp_seq ?_
    have hspec :=
      bmapSlot_spec h hv (E := E) (Nat.le_refl nDirect) (Q := fun addr s1 => Grown H sb ip s s1 ∧
        (addr ≠ 0 → s1.own ((s.inode ip).inum, .ind) = addr))
      fun addr s1 hg ha _ _ => ⟨hg, ha⟩
    refine wp_mono (wp_and hspec (bmapSlot_room h hv (Nat.le_refl nDirect) hind)) ?_ fun _ he => he
    rintro addr s1 ⟨⟨hg, ha⟩, hsp, hz⟩
    split
    · next h0 =>
      exact wp_pure.mpr ⟨hsp, fun _ => ⟨.ind, hind, hz h0⟩⟩
    · next h0 =>
      have hin : (s1.inode ip).inum = (s.inode ip).inum := (hg.table ip).1
      have hmem : Slot.entry (bn - nDirect) ∈ S := hslot ▸ hS.1
      refine wp_mono (bmapEntry_room hg.wf (hg.valid hv) hj (hin ▸ ha h0) h0 hmem) ?_ fun _ he => he
      rintro addr' s2 ⟨hsp2, hz2⟩
      rw [hin] at hsp2 hz2
      exact ⟨hsp.trans hsp2, fun h0' => ⟨_, hmem, hz2 h0'⟩⟩

/-! ## `writei` -/

variable {src : ℕ → UInt8}

/-- The loop of `writei` with a kernel buffer stops early only where a slot is left without a
    block. -/
theorem writeLoop_room (h : WfOn H sb (some ip) s) (hv : s.Valid ip) {n fuel tot off : ℕ}
    (hfuel : n - tot ≤ fuel) (hmax : off + (n - tot) ≤ maxFile * bSize)
    (hS : ∀ k, off / bSize ≤ k → k * bSize < off + (n - tot) → Serves S k) :
    wp (writeLoop sb ip src (fun _ => none) n fuel tot off)
      (fun r s' => Spent sb (s.inode ip).inum S s s' ∧
        (r.1 < n → ∃ σ ∈ S, s'.own ((s.inode ip).inum, σ) = 0)) E s := by
  induction fuel generalizing s tot off with
  | zero =>
    refine wp_pure.mpr ⟨.refl s, fun hlt => ?_⟩
    have hlt : tot < n := hlt
    omega
  | succ fuel ih =>
    unfold writeLoop
    split
    · have hbn : off / bSize < maxFile := div_lt_maxFile (by omega)
      have hserve : Serves S (off / bSize) := by
        refine hS _ le_rfl ?_
        have := Nat.div_mul_le_self off bSize
        omega
      refine wp_seq ?_
      have hspec := bmap_spec h hv (E := E) hbn (Q := fun addr s1 => Grown H sb ip s s1 ∧
          (addr ≠ 0 → s1.own ((s.inode ip).inum, .ofBlock (off / bSize)) = addr))
        fun addr s1 hg ha _ _ => ⟨hg, ha⟩
      refine wp_mono (wp_and hspec (bmap_room h hv hbn hserve)) ?_ fun _ he => he
      rintro addr s1 ⟨⟨hg, ha⟩, hsp, hz⟩
      by_cases ha0 : addr = 0
      · rw [if_pos ha0]
        exact wp_pure.mpr ⟨hsp, fun _ => hz ha0⟩
      · clear hz
        rw [if_neg ha0]
        dsimp only
        generalize hm : min (n - tot) (bSize - off % bSize) = m
        have hmod : off % bSize < bSize := Nat.mod_lt _ (by decide)
        refine wp_seq (wp_modify.mpr ?_)
        obtain ⟨hw, hown, -⟩ := hg.wf.setData (ha ha0) ha0
          fun b => overlay b (off % bSize) m fun j => src (tot + j)
        have hin : (s1.inode ip).inum = (s.inode ip).inum := (hg.table ip).1
        have hsp2 : Spent sb (s.inode ip).inum S s
            (s1.setBlock addr fun b => overlay b (off % bSize) m fun j => src (tot + j)) :=
          hsp.trans (.of_same rfl hown)
        refine wp_mono
          (ih hw (hg.valid hv) (by omega) (by omega) fun k hk1 hk2 => hS k ?_ (by omega))
          ?_ fun _ he => he
        · exact (Nat.div_le_div_right (Nat.le_add_right off m)).trans hk1
        · rintro r s' ⟨h1, h2⟩
          have hin' : ((s1.setBlock addr fun b => overlay b (off % bSize) m fun j =>
            src (tot + j)).inode
              ip).inum = (s.inode ip).inum := hin
          rw [hin'] at h1 h2
          exact ⟨hsp2.trans h1, h2⟩
    · next htot =>
      exact wp_pure.mpr ⟨.refl s, fun hlt => absurd hlt htot⟩

/-- The blocks that a write of `n` bytes at `off` touches. -/
def blocksFor (off n : ℕ) : Finset ℕ :=
  (Finset.range maxFile).filter fun k => off / bSize ≤ k ∧ k * bSize < off + n

/-- The slots of those blocks, with that of the indirect block where it is needed. -/
def slotsFor (off n : ℕ) : Finset Slot :=
  (blocksFor off n).image Slot.ofBlock ∪ ((blocksFor off n).filter (nDirect ≤ ·)).image fun _ =>
    .ind

theorem serves_slotsFor {off n k : ℕ} (hmax : off + n ≤ maxFile * bSize) (h1 : off / bSize ≤ k)
    (h2 : k * bSize < off + n) : Serves (slotsFor off n) k := by
  have hk : k < maxFile := Nat.lt_of_mul_lt_mul_right (h2.trans_le hmax)
  have hmem : k ∈ blocksFor off n := Finset.mem_filter.mpr ⟨Finset.mem_range.mpr hk, h1, h2⟩
  refine ⟨mem_union_left _ (mem_image_of_mem _ hmem), fun hd => ?_⟩
  exact mem_union_right _ (Finset.mem_image.mpr ⟨k, Finset.mem_filter.mpr ⟨hmem, hd⟩, rfl⟩)

/-- The bounds that `writei` checks. -/
def InBounds (size off n : ℕ) : Prop := off ≤ size ∧ off + n ≤ maxFile * bSize

instance (size off n : ℕ) : Decidable (InBounds size off n) := inferInstanceAs (Decidable (_ ∧ _))

theorem inBounds_iff {size off n : ℕ} (hsize : size ≤ maxFile * bSize) (hn : n < 2 ^ 32) :
    InBounds size off n ↔
      ¬(size < off ∨ (off + n) % 2 ^ 32 < off) ∧ ¬maxFile * bSize < (off + n) % 2 ^ 32 := by
  have hM : maxFile * bSize = 274432 := rfl
  unfold InBounds
  omega

theorem writei_room (h : WfOn H sb none s) (hv : s.Valid ip) (hH : H (s.inode ip).inum)
    {off n : ℕ} (hn : n < 2 ^ 32) (hb : InBounds (s.inode ip).d.size off n) :
    wp (writei sb ip src (fun _ => none) off n) (fun r s' => ∃ c, r = some c ∧
      Spent sb (s.inode ip).inum (slotsFor off n) s s' ∧
        (c < n → ∃ σ ∈ slotsFor off n, s'.own ((s.inode ip).inum, σ) = 0)) E s := by
  have hdv := Store.din_of_valid h.uniq hv
  have hlive : (s.din (s.inode ip).inum).type ≠ .free := hdv ▸ h.typed ip hv
  have hsize : (s.inode ip).d.size ≤ maxFile * bSize := by
    rw [← hdv]
    exact h.small _ hH hlive
  obtain ⟨h1, h2⟩ := (inBounds_iff hsize hn).mp hb
  have hcov : Covers s (s.inode ip).inum off := by
    intro k hk
    exact h.holes _ _ hH hlive (by rw [hdv]; exact hk.trans_le hb.1)
  refine wp_read ?_
  rw [if_neg h1, if_neg h2]
  have hspec : wp (writeLoop sb ip src (fun _ => none) n n 0 off)
      (fun _ s1 => WfOn H sb (some ip) s1 ∧ SameTable s s1) E s :=
    writeLoop_spec (h.dirty (some ip)) hv (Nat.sub_le n 0) hb.2 hcov
      fun c m s1 _ _ _ _ _ hw _ => ⟨hw.wf, hw.table⟩
  have hroom : wp (writeLoop sb ip src (fun _ => none) n n 0 off) (fun r s' =>
      Spent sb (s.inode ip).inum (slotsFor off n) s s' ∧
        (r.1 < n → ∃ σ ∈ slotsFor off n, s'.own ((s.inode ip).inum, σ) = 0)) E s :=
    writeLoop_room (h.dirty (some ip)) hv (Nat.sub_le n 0) hb.2 fun k => serves_slotsFor hb.2
  refine wp_seq (wp_mono (wp_and hspec hroom) ?_ fun _ he => he)
  rintro ⟨c, off'⟩ s1 ⟨⟨hw, ht⟩, hspent, hlack⟩
  refine wp_putD (wp_pure.mpr ⟨c, rfl, ?_⟩)
  have hown := own_putD hw.uniq ((ht.valid ip).mpr hv)
    (f := fun d => { d with size := if d.size < off' then off' else d.size }) rfl rfl
  refine ⟨hspent.trans (.of_same rfl hown), fun hc => ?_⟩
  rw [hown]
  exact hlack hc

/-- `writei` from a kernel buffer, where the disk has the blocks that it needs. -/
theorem writei_kernel (h : WfOn H sb none s) (hv : s.Valid ip) (hH : H (s.inode ip).inum)
    {off n : ℕ} (hn : n < 2 ^ 32) (hroom : InBounds (s.inode ip).d.size off n →
      s.lacks (s.inode ip).inum (slotsFor off n) ≤ s.free sb) {Q : Option ℕ → Store → Prop}
    (hbad : ¬InBounds (s.inode ip).d.size off n → Q none s)
    (hgood : InBounds (s.inode ip).d.size off n → ∀ s', WfOn H sb none s' → SameTable s s' →
      s'.node = update s.node (s.inode ip).inum
        ((s.node (s.inode ip).inum).map (Node.put off n n src)) → Q (some n) s') :
    wp (writei sb ip src (fun _ => none) off n) Q E s := by
  by_cases hb : InBounds (s.inode ip).d.size off n
  · have hspec : wp (writei sb ip src (fun _ => none) off n)
        (fun r s' => ∀ c, r = some c → (c = n ∨ c < n ∧ ∀ b, b < sb.size → s'.bit b = true) ∧
          WfOn H sb none s' ∧ SameTable s s' ∧ s'.node = update s.node (s.inode ip).inum
            ((s.node (s.inode ip).inum).map (Node.put off c c src))) E s :=
      writei_spec h hv hH (fun _ c hc => nomatch hc)
      (fun c m s' _ hle _ hm _ hfull hw ht hnode c' hc' => by
        cases hc'
        rw [hm fun _ => rfl] at hnode
        refine ⟨?_, hw, ht, hnode⟩
        rcases hle.eq_or_lt with he | hlt
        · exact .inl he
        · rcases hfull with he | ⟨t, ht⟩ | he
          · exact .inl he
          · exact absurd rfl ht
          · exact .inr ⟨hlt, he⟩) hn
    refine wp_mono (wp_and hspec (writei_room h hv hH hn hb)) ?_ fun _ he => he
    rintro r s' ⟨hr, c, rfl, hspent, hlack⟩
    obtain ⟨hfull, hw, ht, hnode⟩ := hr c rfl
    have hc : c = n := by
      rcases hfull with he | ⟨hlt, he⟩
      · exact he
      · obtain ⟨σ, hσ, h0⟩ := hlack hlt
        exact absurd he (hspent.not_full (hroom hb) hσ h0)
    rw [hc] at hnode ⊢
    exact hgood hb s' hw ht hnode
  · have hdv := Store.din_of_valid h.uniq hv
    have hsize : (s.inode ip).d.size ≤ maxFile * bSize := by
      rw [← hdv]
      exact h.small _ hH (hdv ▸ h.typed ip hv)
    have hout := mt (inBounds_iff hsize hn).mpr hb
    refine wp_read ?_
    split
    · exact wp_pure.mpr (hbad hb)
    · next h1 =>
      rw [if_pos (not_not.mp fun h2 => hout ⟨h1, h2⟩)]
      exact wp_pure.mpr (hbad hb)

/-- Where every block has been found, no slot is without one. -/
theorem lacks_eq_zero {off n : ℕ} (h : ∀ k, k * bSize < off + n → s.own (i, .ofBlock k) ≠ 0) :
    s.lacks i (slotsFor off n) = 0 := by
  refine Finset.card_eq_zero.mpr (Finset.filter_eq_empty_iff.mpr fun σ hσ => ?_)
  rcases Finset.mem_union.mp hσ with hσ | hσ
  · obtain ⟨k, hk, rfl⟩ := Finset.mem_image.mp hσ
    exact h k (Finset.mem_filter.mp hk).2.2
  · obtain ⟨k, hk, rfl⟩ := Finset.mem_image.mp hσ
    obtain ⟨hk, hd⟩ := Finset.mem_filter.mp hk
    refine fun h0 => h k (Finset.mem_filter.mp hk).2.2 ?_
    -- an inode without an indirect block has none of its entries
    unfold Store.own at h0 ⊢
    by_cases ht : (s.din i).type = .free
    · rw [if_pos ht]
    · rw [if_neg ht] at h0 ⊢
      rw [Slot.ofBlock, if_neg (Nat.not_lt.mpr hd), Dinode.addr_entry, if_neg fun hc => hc.2 h0]

/-- A write of `n` bytes at `off` finds the blocks that it needs. -/
def Store.Room (s : Store) (sb : Super) (ip : Ptr) (off n : ℕ) : Prop :=
  InBounds (s.inode ip).d.size off n ∧ s.lacks (s.inode ip).inum (slotsFor off n) ≤ s.free sb

/-- A write from a kernel buffer is complete exactly if there is room. -/
theorem writei_full (h : WfOn H sb none s) (hv : s.Valid ip) (hH : H (s.inode ip).inum)
    {off n : ℕ} (hn : n < 2 ^ 32) :
    wp (writei sb ip src (fun _ => none) off n) (fun r _ => r = some n ↔ s.Room sb ip off n)
      E s := by
  by_cases hroom : s.Room sb ip off n
  · exact writei_kernel h hv hH hn (fun _ => hroom.2) (fun hb => absurd hroom.1 hb)
      fun _ _ _ _ _ => ⟨fun _ => hroom, fun _ => rfl⟩
  by_cases hb : InBounds (s.inode ip).d.size off n
  · have hspec : wp (writei sb ip src (fun _ => none) off n) (fun r s' => r = some n →
        WfOn H sb none s' ∧ SameTable s s' ∧ off + n ≤ (s'.inode ip).d.size) E s := by
      refine writei_spec h hv hH (fun _ => nofun) (fun c m s' _ _ _ _ _ _ hw ht hnode hr => ?_) hn
      obtain rfl : c = n := Option.some.inj hr
      have hnode' := node_of_valid hw ((ht.valid ip).mpr hv)
      rw [(ht ip).1, hnode, update_self, node_of_valid h hv] at hnode'
      have hsize : (if (s.inode ip).d.size < off + c then off + c else (s.inode ip).d.size) =
          (s'.inode ip).d.size := congrArg Node.size (Option.some.inj hnode')
      refine ⟨hw, ht, ?_⟩
      split at hsize <;> omega
    refine wp_mono (wp_and hspec (writei_room h hv hH hn hb)) ?_ fun _ he => he
    rintro r s' ⟨hr, c, rfl, hspent, _⟩
    refine ⟨fun hc => ⟨hb, ?_⟩, fun h' => absurd h' hroom⟩
    obtain ⟨hw, ht, hsize⟩ := hr hc
    have hv' := (ht.valid ip).mpr hv
    have hdin := Store.din_of_valid hw.uniq hv'
    rw [(ht ip).1] at hdin
    have hzero : s'.lacks (s.inode ip).inum (slotsFor off n) = 0 := lacks_eq_zero fun k hk =>
      hw.holes _ k hH (by rw [hdin]; exact hw.typed ip hv') (by rw [hdin]; exact hk.trans_le hsize)
    unfold Spent at hspent
    omega
  · exact writei_kernel h hv hH hn (fun hb' => absurd hb' hb)
      (fun _ => ⟨nofun, fun hr => absurd hr hroom⟩)
      fun hb' => absurd hb' hb

end Xv6.Fs
