/-
  Freeing of blocks: what `itrunc` does.

  The loops of `itrunc` free blocks that the inode still names, so between two steps the slots
  and the free map disagree. The loops are followed with the owners of the blocks that are left:
  `cleared own P` are the owners without the slots in `P`.
-/
import Xv6.Fs.BlockSpec

namespace Xv6.Fs

open Lib Act Function Dinode

variable {H : ℕ → Prop} {sb : Super} {x : Option Ptr} {s s' : Store} {ip : Ptr} {E : Stop → Prop}

open scoped Classical in
/-- The owners without the slots in `P`. -/
noncomputable def cleared (own : ℕ × Slot → ℕ) (P : ℕ × Slot → Prop) (k : ℕ × Slot) : ℕ :=
  if P k then 0 else own k

variable {Q : Unit → Store → Prop} {own : ℕ × Slot → ℕ}

theorem cleared_none {P : ℕ × Slot → Prop} (h : ∀ k, P k → own k = 0) :
    cleared own P = own := by
  funext k
  unfold cleared
  by_cases hk : P k
  · rw [if_pos hk, h k hk]
  · rw [if_neg hk]

theorem cleared_update {P P' : ℕ × Slot → Prop} {k0 : ℕ × Slot}
    (h : ∀ k, P' k ↔ k = k0 ∨ P k) : cleared (update own k0 0) P = cleared own P' := by
  funext k
  unfold cleared
  by_cases hk : k = k0
  · rw [if_pos ((h k).mpr (.inl hk)), hk, update_self, ite_self]
  · rw [update_of_ne hk]
    by_cases hP : P k
    · rw [if_pos hP, if_pos ((h k).mpr (.inr hP))]
    · rw [if_neg hP, if_neg fun h' => ((h k).mp h').elim hk hP]

/-- Slots `f i` to `f (i + n - 1)` of inode `x`. -/
def SlotRange (f : ℕ → Slot) (x i n : ℕ) (k : ℕ × Slot) : Prop :=
  ∃ j, k = (x, f j) ∧ i ≤ j ∧ j < i + n

theorem slotRange_succ (f : ℕ → Slot) (x i n : ℕ) (k : ℕ × Slot) :
    SlotRange f x i (n + 1) k ↔ k = (x, f i) ∨ SlotRange f x (i + 1) n k := by
  constructor
  · rintro ⟨j, rfl, h1, h2⟩
    rcases Nat.eq_or_lt_of_le h1 with rfl | hlt
    · exact .inl rfl
    · exact .inr ⟨j, rfl, hlt, by omega⟩
  · rintro (rfl | ⟨j, rfl, h1, h2⟩)
    · exact ⟨i, rfl, Nat.le_refl i, by omega⟩
    · exact ⟨j, rfl, by omega, by omega⟩

theorem bfree_spec {b : ℕ} (hb : s.bit b = true)
    (hQ : Q () { s with bit := update s.bit b false }) : wp (bfree b) Q E s := by
  refine wp_read ?_
  rw [if_pos hb]
  exact hQ

/-- What the loops change: the free map and the addresses of `ip`. -/
structure Freed (ip : Ptr) (s s' : Store) : Prop where
  table : SameTable s s'
  disk : s'.dinode = s.dinode
  block : s'.block = s.block
  others : ∀ e, e ≠ ip → (s'.inode e).d = (s.inode e).d
  fields : ∃ a, (s'.inode ip).d = { (s.inode ip).d with addrs := a }

theorem Freed.refl (ip : Ptr) (s : Store) : Freed ip s s :=
  ⟨.refl s, rfl, rfl, fun _ _ => rfl, _, rfl⟩

theorem Freed.trans {s'' : Store} (h : Freed ip s s') (h' : Freed ip s' s'') : Freed ip s s'' where
  table := h.table.trans h'.table
  disk := h'.disk.trans h.disk
  block := h'.block.trans h.block
  others := fun e he => (h'.others e he).trans (h.others e he)
  fields := by
    obtain ⟨a, ha⟩ := h.fields
    obtain ⟨a', ha'⟩ := h'.fields
    exact ⟨a', by rw [ha', ha]⟩

theorem Freed.bit (ip : Ptr) (s : Store) (f : ℕ → Bool) : Freed ip s { s with bit := f } :=
  ⟨.of_inode rfl, rfl, rfl, fun _ _ => rfl, _, rfl⟩

theorem Freed.setAddr (ip : Ptr) (s : Store) (k a : ℕ) : Freed ip s (s.setAddr ip k a) :=
  ⟨.setD ip _, rfl, rfl, fun _ he => setD_d_ne _ he, _, setD_d _⟩

theorem truncDirect_spec {lo hi x n i : ℕ} (hex : Exact lo hi own s.bit)
    (hown : ∀ j, i ≤ j → j < i + n → own (x, .direct j) = (s.inode ip).d.addrs j)
    (hQ : ∀ s', Freed ip s s' → Exact lo hi (cleared own (SlotRange .direct x i n)) s'.bit →
      (∀ j, (s'.inode ip).d.addrs j = if i ≤ j ∧ j < i + n then 0 else (s.inode ip).d.addrs j) →
      Q () s') :
    wp (truncDirect ip n i) Q E s := by
  -- `n` counts the slots that are left
  induction n generalizing i s own with
  | zero =>
    refine wp_pure.mpr (hQ s (.refl ip s) ?_ fun j => (if_neg (by omega)).symm)
    rw [cleared_none]
    · exact hex
    · rintro k ⟨j, _, h1, h2⟩
      omega
  | succ n ih =>
    refine wp_read ?_
    have hi := hown i (Nat.le_refl i) (by omega)
    by_cases h0 : (s.inode ip).d.addrs i = 0
    · rw [if_neg (not_not.mpr h0)]
      refine ih hex (fun j h1 h2 => hown j (by omega) (by omega)) fun s' hf hex' ha => ?_
      refine hQ s' hf ?_ fun j => ?_
      · rw [← cleared_update (slotRange_succ .direct x i n)]
        have hu : update own (x, Slot.direct i) 0 = own := by
          rw [← h0, ← hi]
          exact update_eq_self _ _
        rw [hu]
        exact hex'
      · rw [ha j]
        by_cases hj : j = i
        · subst hj
          rw [if_neg (by omega), if_pos (by omega), h0]
        · exact if_congr (by omega) rfl rfl
    · rw [if_pos h0]
      have hk : own (x, .direct i) ≠ 0 := hi ▸ h0
      have hb := hex.marked _ hk
      rw [hi] at hb
      refine wp_seq (bfree_spec hb (wp_seq (wp_modify.mpr ?_)))
      have hex1 := hex.drop hk
      rw [hi] at hex1
      generalize hs1 : ({ s with bit := update s.bit ((s.inode ip).d.addrs i) false } : Store) = s1
      have hf1 : Freed ip s (s1.setAddr ip i 0) := by
        rw [← hs1]
        exact (Freed.bit ip s _).trans (.setAddr ip _ i 0)
      have hino : s1.inode = s.inode := by rw [← hs1]
      have hd : ((s1.setAddr ip i 0).inode ip).d.addrs = update (s.inode ip).d.addrs i 0 := by
        unfold Store.setAddr
        rw [setD_d, hino]
      have hbit : (s1.setAddr ip i 0).bit = update s.bit ((s.inode ip).d.addrs i) false := by
        rw [← hs1]
        rfl
      rw [← hbit] at hex1
      refine ih hex1 (fun j h1 h2 => ?_) fun s' hf hex' ha => ?_
      · have hj : j ≠ i := by omega
        rw [hd, update_of_ne hj, update_of_ne]
        · exact hown j (by omega) (by omega)
        · intro h
          cases h
          omega
      · refine hQ s' (hf1.trans hf) ?_ fun j => ?_
        · rw [← cleared_update (slotRange_succ .direct x i n)]
          exact hex'
        · rw [ha j, hd]
          by_cases hj : j = i
          · subst hj
            rw [if_neg (by omega), if_pos (by omega), update_self]
          · rw [update_of_ne hj]
            exact if_congr (by omega) rfl rfl

theorem truncEntries_spec {lo hi x n i : ℕ} {a : Block} (hex : Exact lo hi own s.bit)
    (hown : ∀ j, i ≤ j → j < i + n → own (x, .entry j) = getUint a j)
    (hQ : ∀ bit', Exact lo hi (cleared own (SlotRange .entry x i n)) bit' →
      Q () { s with bit := bit' }) :
    wp (truncEntries a n i) Q E s := by
  induction n generalizing i s own with
  | zero =>
    have h := hQ s.bit
    refine wp_pure.mpr (h ?_)
    rw [cleared_none]
    · exact hex
    · rintro k ⟨j, _, h1, h2⟩
      omega
  | succ n ih =>
    unfold truncEntries
    have hi := hown i (Nat.le_refl i) (by omega)
    by_cases h0 : getUint a i = 0
    · rw [if_neg (not_not.mpr h0)]
      refine ih hex (fun j h1 h2 => hown j (by omega) (by omega)) fun bit' hex' => hQ bit' ?_
      rw [← cleared_update (slotRange_succ .entry x i n)]
      have hu : update own (x, Slot.entry i) 0 = own := by
        rw [← h0, ← hi]
        exact update_eq_self _ _
      rw [hu]
      exact hex'
    · rw [if_pos h0]
      have hk : own (x, .entry i) ≠ 0 := hi ▸ h0
      have hb := hex.marked _ hk
      rw [hi] at hb
      refine wp_seq (bfree_spec hb ?_)
      have hex1 := hex.drop hk
      rw [hi] at hex1
      refine ih hex1 (fun j h1 h2 => ?_) fun bit' hex' => hQ bit' ?_
      · rw [update_of_ne]
        · exact hown j (by omega) (by omega)
        · intro h
          cases h
          omega
      · rw [← cleared_update (slotRange_succ .entry x i n)]
        exact hex'

theorem truncIndirect_spec {lo hi x : ℕ} (hex : Exact lo hi own s.bit)
    (hind : own (x, .ind) = (s.inode ip).d.addrs nDirect)
    (hown : ∀ j, own (x, .entry j) = (s.inode ip).d.addr s.block (.entry j))
    (hQ : ∀ s', Freed ip s s' →
      Exact lo hi (cleared own fun k => k = (x, .ind) ∨ ∃ j, k = (x, .entry j)) s'.bit →
      (s'.inode ip).d.addrs = update (s.inode ip).d.addrs nDirect 0 → Q () s') :
    wp (truncIndirect ip) Q E s := by
  refine wp_read ?_
  by_cases h0 : (s.inode ip).d.addrs nDirect = 0
  · rw [if_neg (not_not.mpr h0)]
    refine wp_pure.mpr (hQ s (.refl ip s) ?_ ?_)
    · rw [cleared_none]
      · exact hex
      · rintro k (rfl | ⟨j, rfl⟩)
        · exact hind.trans h0
        · rw [hown, addr_entry]
          exact if_neg fun h => h.2 h0
    · rw [← h0]
      exact (update_eq_self _ _).symm
  · rw [if_pos h0]
    have hentry : ∀ j, 0 ≤ j → j < 0 + nIndirect →
        own (x, .entry j) = getUint (s.block ((s.inode ip).d.addrs nDirect)) j := by
      intro j _ hj
      rw [hown, addr_entry, if_pos ⟨by omega, h0⟩]
    refine wp_seq (truncEntries_spec hex hentry fun bit' hex' => ?_)
    have hk : cleared own (SlotRange .entry x 0 nIndirect) (x, .ind) ≠ 0 := by
      unfold cleared
      rw [if_neg (fun ⟨j, h, _⟩ => nomatch h), hind]
      exact h0
    have hval : cleared own (SlotRange .entry x 0 nIndirect) (x, .ind) =
        (s.inode ip).d.addrs nDirect := by
      unfold cleared
      rw [if_neg (fun ⟨j, h, _⟩ => nomatch h), hind]
    have hb := hex'.marked _ hk
    have hex2 := hex'.drop hk
    rw [hval] at hb hex2
    refine wp_seq (bfree_spec hb (wp_modify.mpr ?_))
    refine hQ _ (((Freed.bit ip s bit').trans (Freed.bit ip _ _)).trans (.setAddr ip _ nDirect 0))
      ?_ ?_
    · -- entries at the end of the block do not count
      have hall : (cleared own fun k => k = (x, .ind) ∨ ∃ j, k = (x, .entry j)) =
          update (cleared own (SlotRange .entry x 0 nIndirect)) (x, .ind) 0 := by
        funext k
        by_cases hki : k = (x, .ind)
        · rw [hki, update_self]
          exact if_pos (.inl rfl)
        · rw [update_of_ne hki]
          unfold cleared
          by_cases hke : ∃ j, k = (x, .entry j)
          · obtain ⟨j, rfl⟩ := hke
            rw [if_pos (.inr ⟨j, rfl⟩)]
            by_cases hj : j < nIndirect
            · rw [if_pos ⟨j, rfl, Nat.zero_le j, by omega⟩]
            · rw [if_neg, hown, addr_entry, if_neg fun h => hj h.1]
              rintro ⟨j', h, _, hlt⟩
              cases h
              omega
          · rw [if_neg (fun h => h.elim hki hke), if_neg]
            rintro ⟨j, h, _⟩
            exact hke ⟨j, h⟩
      rw [hall]
      exact hex2
    · show ((Store.setD _ ip _).inode ip).d.addrs = _
      rw [setD_d]

/-- The node after `itrunc`. -/
def Node.trunc (n : Node) : Node := { n with size := 0, data := fun _ => 0 }

/-- A change of inode `ip` with its blocks all given back. -/
theorem WfOn.emptied (h : WfOn H sb x s) (hv : s.Valid ip) {d : Dinode} (ht : SameTable s s')
    (hdisk : s'.dinode = update s.dinode (s.inode ip).inum d)
    (hd : (s'.inode ip).d = d) (htype : d.type = (s.inode ip).d.type)
    (hothers : ∀ e, e ≠ ip → (s'.inode e).d = (s.inode e).d) (hblock : s'.block = s.block)
    (haddr : ∀ σ, d.addr s'.block σ = 0) (hsize : d.size = 0)
    (hex : Exact sb.nmeta sb.size (cleared s.own fun k => k.1 = (s.inode ip).inum) s'.bit)
    (hx : x = none ∨ x = some ip) : WfOn H sb none s' := by
  have hdin : s'.din = update s.din (s.inode ip).inum d := by
    rw [din_update h.uniq ht hv hothers fun i hi => by rw [hdisk, update_of_ne hi], hd]
  have hown : s'.own = cleared s.own fun k => k.1 = (s.inode ip).inum := by
    funext k
    unfold cleared Store.own
    rw [hdin, hblock]
    by_cases hk : k.1 = (s.inode ip).inum
    · rw [if_pos hk, hk, update_self, ← hblock, haddr, ite_self]
    · rw [if_neg hk, update_of_ne hk]
  refine ⟨ht.uniq h.uniq, ?_, ?_, hown ▸ hex, h.fits, ?_, ?_, ?_⟩
  · intro e he
    have he' := (ht.valid e).mp he
    by_cases hip : e = ip
    · rw [hip, hd, htype]
      exact h.typed ip hv
    · rw [hothers e hip]
      exact h.typed e he'
  · intro e _ he
    have he' := (ht.valid e).mp he
    rw [(ht e).1, hdisk]
    by_cases hip : e = ip
    · rw [hip, update_self, hd]
    · have hne : (s.inode e).inum ≠ (s.inode ip).inum := fun hn => hip (h.uniq e ip he'.1 hv.1 hn)
      rw [update_of_ne hne, hothers e hip]
      refine h.clean e (fun hxe => ?_) he'
      rcases hx with rfl | rfl
      · cases hxe
      · exact hip (Option.some.inj hxe).symm
  · intro i n hH hi hn
    rw [hdin] at hi hn
    by_cases hii : i = (s.inode ip).inum
    · rw [hii, update_self, hsize] at hn
      exact absurd hn (Nat.not_lt_zero _)
    · rw [update_of_ne hii] at hi hn
      rw [hown]
      unfold cleared
      rw [if_neg hii]
      exact h.holes i n hH hi hn
  · intro i hH hi
    rw [hdin] at hi ⊢
    by_cases hii : i = (s.inode ip).inum
    · rw [hii, update_self, hsize]
      exact Nat.zero_le _
    · rw [update_of_ne hii] at hi ⊢
      exact h.small i hH hi
  · intro i hi
    rw [hdin]
    by_cases hii : i = (s.inode ip).inum
    · have := h.beyond i hi
      rw [hii, Store.din_of_valid h.uniq hv] at this
      exact absurd this (h.typed ip hv)
    · rw [update_of_ne hii]
      exact h.beyond i hi

/-- A node depends on the inode and on the blocks in its own slots. -/
theorem node_local {i : ℕ} (hd : s'.din i = s.din i) (ho : ∀ σ, s'.own (i, σ) = s.own (i, σ))
    (hb : ∀ n, s.own (i, .ofBlock n) ≠ 0 →
      s'.block (s.own (i, .ofBlock n)) = s.block (s.own (i, .ofBlock n))) :
        s'.node i = s.node i := by
  refine node_of_fields (by rw [hd]) (by rw [hd]) (by rw [hd]) (by rw [hd]) (by rw [hd]) ?_
  funext o
  unfold Store.byte
  rw [ho]
  by_cases h0 : s.own (i, .ofBlock (o / bSize)) = 0
  · rw [if_pos h0, if_pos h0]
  · rw [if_neg h0, if_neg h0, hb _ h0]

theorem iupdate_eq (ip : Ptr) : iupdate ip = modify fun s =>
      { s with dinode := update s.dinode (s.inode ip).inum (s.inode ip).d } := rfl

/-- `itrunc` gives back all blocks of the inode. -/
theorem itrunc_spec (h : WfOn H sb x s) (hv : s.Valid ip) (hx : x = none ∨ x = some ip)
    {Q : Unit → Store → Prop} (hQ : ∀ s', WfOn H sb none s' → SameTable s s' →
      (∃ a, (s'.inode ip).d = { (s.inode ip).d with size := 0, addrs := a }) →
      (∀ e, e ≠ ip → (s'.inode e).d = (s.inode e).d) →
      (∀ σ, s'.own ((s.inode ip).inum, σ) = 0) → s'.block = s.block →
      (∀ j, j ≠ (s.inode ip).inum → s'.dinode j = s.dinode j) →
      s'.node = update s.node (s.inode ip).inum ((s.node (s.inode ip).inum).map Node.trunc) →
      Q () s') :
    wp (itrunc ip) Q E s := by
  unfold itrunc
  have hdirect : ∀ j, 0 ≤ j → j < 0 + nDirect →
      s.own ((s.inode ip).inum, .direct j) = (s.inode ip).d.addrs j := by
    intro j _ hj
    rw [own_of_valid h hv, addr_direct, if_pos (by omega)]
  refine wp_seq (truncDirect_spec h.exact hdirect fun s1 hf1 hex1 ha1 => ?_)
  have hind1 : (s1.inode ip).d.addrs nDirect = (s.inode ip).d.addrs nDirect := by
    rw [ha1, if_neg (by omega)]
  refine wp_seq
    (truncIndirect_spec (x := (s.inode ip).inum) hex1 ?_ (fun j => ?_) fun s2 hf2 hex2 ha2 => ?_)
  · rw [hind1]
    unfold cleared
    rw [if_neg (fun ⟨j, h, _⟩ => nomatch h), own_of_valid h hv]
    rfl
  · unfold cleared
    rw [if_neg (fun ⟨j, h, _⟩ => nomatch h), own_of_valid h hv, addr_entry, addr_entry, hind1,
      hf1.block]
  · refine wp_seq (wp_modify.mpr ?_)
    rw [iupdate_eq]
    refine wp_modify.mpr ?_
    have hf := hf1.trans hf2
    obtain ⟨a, ha⟩ := hf.fields
    generalize hs3 : (s2.setD ip fun d => { d with size := 0 }) = s3
    have hd3 : (s3.inode ip).d = { (s.inode ip).d with size := 0, addrs := a } := by
      rw [← hs3, setD_d, ha]
    have hothers3 : ∀ e, e ≠ ip → (s3.inode e).d = (s.inode e).d := by
      intro e he
      rw [← hs3, setD_d_ne _ he]
      exact hf.others e he
    have ht3 : SameTable s s3 := by
      rw [← hs3]
      exact hf.table.trans (.setD ip _)
    have hbit3 : s3.bit = s2.bit := by
      rw [← hs3]
      rfl
    have hblock3 : s3.block = s.block := by
      rw [← hs3, ← hf.block]
      rfl
    have hdisk3 : s3.dinode = s.dinode := by
      rw [← hs3, ← hf.disk]
      rfl
    generalize hs4 :
      ({ s3 with dinode := update s3.dinode (s3.inode ip).inum (s3.inode ip).d } : Store) = s4
    have hino4 : s4.inode = s3.inode := by rw [← hs4]
    have hblock4 : s4.block = s.block := by rw [← hs4, ← hblock3]
    have ht4 : SameTable s s4 := ht3.trans (.of_inode hino4)
    have hdisk4 : s4.dinode = update s.dinode (s.inode ip).inum
        { (s.inode ip).d with size := 0, addrs := a } := by
      rw [← hs4]
      show update s3.dinode (s3.inode ip).inum (s3.inode ip).d = _
      rw [hdisk3, (ht3 ip).1, hd3]
    have hd4 : (s4.inode ip).d = { (s.inode ip).d with size := 0, addrs := a } := by rw [hino4, hd3]
    have hothers4 : ∀ e, e ≠ ip → (s4.inode e).d = (s.inode e).d := by rw [hino4]; exact hothers3
    -- no address is left
    have haddrs : ∀ j, j ≤ nDirect → a j = 0 := by
      intro j hj
      have ha' : a = (s2.inode ip).d.addrs := by rw [ha]
      rw [ha', ha2]
      by_cases hjd : j = nDirect
      · rw [hjd, update_self]
      · rw [update_of_ne hjd, ha1, if_pos (by omega)]
    have haddr : ∀ σ, ({ (s.inode ip).d with size := 0, addrs := a } : Dinode).addr s4.block σ =
        0 := by
      intro σ
      cases σ with
      | direct k =>
        rw [addr_direct]
        by_cases hk : k < nDirect
        · rw [if_pos hk]
          exact haddrs k (Nat.le_of_lt hk)
        · rw [if_neg hk]
      | ind => exact haddrs nDirect (Nat.le_refl _)
      | entry j =>
        rw [addr_entry]
        exact if_neg fun h => h.2 (haddrs nDirect (Nat.le_refl _))
    have hclear : (cleared (cleared s.own (SlotRange .direct (s.inode ip).inum 0 nDirect))
        fun k => k = ((s.inode ip).inum, .ind) ∨ ∃ j, k = ((s.inode ip).inum, .entry j)) =
        cleared s.own fun k => k.1 = (s.inode ip).inum := by
      funext k
      obtain ⟨y, σ⟩ := k
      unfold cleared
      by_cases hy : y = (s.inode ip).inum
      · subst hy
        rw [if_pos rfl]
        cases σ with
        | direct k =>
          rw [if_neg (fun h => h.elim nofun fun ⟨j, h⟩ => nomatch h)]
          by_cases hk : k < nDirect
          · exact if_pos ⟨k, rfl, Nat.zero_le k, by omega⟩
          · rw [own_of_valid h hv, addr_direct, if_neg hk, ite_self]
        | ind => exact if_pos (.inl rfl)
        | entry j => exact if_pos (.inr ⟨j, rfl⟩)
      · rw [if_neg hy, if_neg, if_neg]
        · rintro ⟨j, h, _⟩
          cases h
          exact hy rfl
        · rintro (h | ⟨j, h⟩)
          · cases h
            exact hy rfl
          · cases h
            exact hy rfl
    rw [hclear] at hex2
    have hbit4 : s4.bit = s2.bit := by rw [← hs4, ← hbit3]
    have hwf := h.emptied hv ht4 hdisk4 hd4 rfl hothers4 hblock4 haddr rfl (hbit4 ▸ hex2) hx
    have hv4 := (ht4.valid ip).mpr hv
    have hin4 : (s4.inode ip).inum = (s.inode ip).inum := (ht4 ip).1
    have hown4 : ∀ σ, s4.own ((s.inode ip).inum, σ) = 0 := by
      intro σ
      rw [← hin4, own_of_valid hwf hv4, hd4]
      exact haddr σ
    refine hQ s4 hwf ht4 ⟨a, hd4⟩ hothers4 hown4 hblock4
      (fun j hj => by rw [hdisk4, update_of_ne hj]) ?_
    have hdin : s4.din = update s.din (s.inode ip).inum
        { (s.inode ip).d with size := 0, addrs := a } := by
      rw [din_update h.uniq ht4 hv hothers4 fun i hi => by rw [hdisk4, update_of_ne hi], hd4]
    funext i
    by_cases hi : i = (s.inode ip).inum
    · rw [hi, update_self]
      unfold Store.node
      rw [hdin, update_self, Store.din_of_valid h.uniq hv]
      dsimp only
      rw [if_neg (h.typed ip hv), if_neg (h.typed ip hv)]
      have hbyte : s4.byte (s.inode ip).inum = fun _ => 0 := by
        funext o
        unfold Store.byte
        rw [hown4, if_pos rfl]
      rw [hbyte]
      rfl
    · rw [update_of_ne hi]
      have hdi : s4.din i = s.din i := by rw [hdin, update_of_ne hi]
      refine node_local hdi (fun σ => ?_) fun n _ => by rw [hblock4]
      unfold Store.own
      rw [hblock4]
      dsimp only
      rw [hdi]

end Xv6.Fs
