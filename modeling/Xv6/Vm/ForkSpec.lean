/-
  `sys_sbrk`, `uvmcopy`, `allocproc` and `freeproc`, and `kfork`.

  After `uvmcopy` the child's table maps the pages of the parent's, and no entry lets either of them
  write a page that they share. What a slot of the process table holds is `SlotMem`.
-/
import Xv6.Vm.KernSpec

namespace Xv6.Vm

open Lib Function Forest Heap Process

variable {L : Layout} {E : Panic → Prop} {G G' G'' : Forest} {h h' h'' : PageHeap}
  {id old new : Tid} {p q t v k n pt np sz b b' : ℕ} {e : Pte} {f : ℕ → Pte}

/-! ## `growproc` and `sys_sbrk` -/

/-- The process has the size `sz'`, and what it has below is as before. -/
structure Resized (L : Layout) (id : Tid) (sz' : ℕ) (G : Forest) (h : PageHeap) (G' : Forest)
    (h' : PageHeap) : Prop where
  holds : Holds L G' h'
  frame : Frame {id} G h G' h'
  leaves : UserLeaves (G'.leaf id) (pageCount sz')
  page : ∀ v, v < pageCount sz' → G'.page h' id v = G.page h id v

section

variable {Q : Post (Option ℕ)} {p : Proc} {i : ℤ} (hH : Holds L G h)
  (hroot : G.node id .root = some p.pagetable) (hl : UserLeaves (G.leaf id) (pageCount p.sz))

include hl in
theorem Resized.lazy (hH : Holds L G h) (hle : p.sz ≤ sz) (htf : sz ≤ trapframeVa) :
    Resized L id sz G h G h :=
  ⟨hH, .refl _ G h, hl.widen (pageCount_mono hle) (pageCount_mono htf), fun _ _ => rfl⟩

include hH hroot hl

/-- **`growproc`.** -/
theorem growproc_spec
    (hQ : ∀ G' h' b' r, Resized L id (r.getD p.sz) G h G' h' → Q r h' b') :
    Spec L E Q (growproc L p i) h b := by
  have hsame : Resized L id p.sz G h G h := ⟨hH, .refl _ G h, hl, fun _ _ => rfl⟩
  unfold growproc
  split
  · rename_i hpos
    split
    · exact hQ G h b none hsame
    rename_i hle
    refine wp_seq
      (uvmalloc_spec hH hroot hl (.inr (pageCount_mono (Nat.le_of_not_lt hle))) ?_ ?_ ?_)
    · intro hlt
      omega
    · intro _ G' h' b' hl' he
      rw [if_neg (by omega)]
      exact hQ G' h' b' (some _) ⟨he.holds, he.frame, hl', fun _ _ => by rw [he.page]⟩
    · intro G' h' b' hu
      rw [if_pos rfl]
      exact hQ G' h' b' none ⟨hu.holds, hu.frame, hu.leaves, fun _ _ => by rw [hu.page]⟩
  split
  · refine wp_seq (uvmdealloc_spec hH hroot hl.size_le (fun w _ hw => hl.user w hw) ?_)
    intro G' h' b' hu _
    generalize ((p.sz : ℤ) + i) % 2 ^ 64 = x at hu ⊢
    refine hQ G' h' b' (some _) ⟨hu.holds, hu.frame, ?_, ?_⟩
    · rw [hu.leaf]
      show UserLeaves _ (pageCount (if p.sz ≤ x.toNat then p.sz else x.toNat))
      split_ifs with hle
      · rw [Nat.sub_eq_zero_of_le (pageCount_mono hle), setRange_zero]
        exact hl
      · exact hl.clear (pageCount_mono (Nat.le_of_not_le hle))
    · intro v hv
      change v < pageCount (if p.sz ≤ x.toNat then p.sz else x.toNat) at hv
      rw [hu.page v, if_neg]
      split_ifs at hv with hle
      · have := pageCount_mono hle
        omega
      · omega
  · exact hQ G h b (some p.sz) hsame

/-- **`sys_sbrk`**, eager or lazy. -/
theorem sysSbrk_spec {t : ℤ}
    (hQ : ∀ G' h' b' r, Resized L id (r.getD p.sz) G h G' h' → Q r h' b') :
    Spec L E Q (sysSbrk L p i t) h b := by
  unfold sysSbrk
  split
  · exact growproc_spec hH hroot hl hQ
  split
  · exact hQ G h b none ⟨hH, .refl _ G h, hl, fun _ _ => rfl⟩
  · rename_i hle
    exact hQ G h b (some _) (.lazy hl hH (Nat.le_add_right _ _) (Nat.le_of_not_lt hle))

end

/-! ## Entries -/

theorem Frame.mono {I J : Set Tid} (hf : Frame I G h G' h') (hIJ : I ⊆ J) : Frame J G h G' h' where
  node id hid := hf.node id fun hx => hid (hIJ hx)
  leaf id hid := hf.leaf id fun hx => hid (hIJ hx)
  root := hf.root
  priv := hf.priv
  cell := hf.cell
  page id hid := hf.page id fun hx => hid (hIJ hx)

theorem Pte.share_w (e : Pte) : e.share.w = false := by
  unfold Pte.share
  split_ifs with hc
  · rfl
  · simp only [not_or, Bool.not_eq_true] at hc
    exact hc.1

theorem Pte.share_maps (e : Pte) (q : ℕ) : e.share.maps q = e.maps q := by
  unfold Pte.share
  split_ifs <;> rfl

theorem Pte.share_u (e : Pte) : e.share.u = e.u := by
  unfold Pte.share
  split_ifs <;> rfl

/-- The entry that `uvmcopy` enters in the new table. -/
theorem Pte.share_eta (hv : e.v = true) :
    { e.share.toFlags with v := true, ppn := e.ppn } = e.share := by
  unfold Pte.share
  split_ifs <;> rw [← hv]

theorem sharePte_spec {Q : Post Unit} (hH : Holds L G h) (hv : v < maxVpn)
    (ht : G.node id (botOf v) = some t) (hm : (G.leaf id v).maps q = true)
    (hQ : ∀ G' h', Holds L G' h' → Frame {id} G h G' h' → G'.node = G.node →
      G'.leaf id = update (G.leaf id) v (G.leaf id v).share → G'.page h' id = G.page h id →
      Q () h' b) :
    Spec L E Q (sharePte t (ix0 v) (G.leaf id v)) h b := by
  have htN : G.Node t := ⟨id, _, ht⟩
  unfold sharePte
  split
  · refine setPte_spec (hH.table id _ t ht) ?_
    have hH' := hH.setLeaf (e := (G.leaf id v).share) hv ht (fun q => (G.leaf id v).share_maps q)
      (fun q _ hw => by rw [Pte.share_w] at hw; cases hw)
    have hcell : ∀ r, r ≠ t →
        Holds.setEntry h t (G.entries id (botOf v)) (ix0 v) (G.leaf id v).share r = h r :=
      fun r hr => Holds.setEntry_ne _ _ _ _ hr
    obtain ⟨hframe, hpage⟩ := Frame.of_setLeaf hH hH' ht (fun r hr => .inl (by rw [hcell r hr]))
      (fun r hr => hcell r (by rintro rfl; exact hH.apart r htN hr))
    refine hQ _ _ hH' hframe rfl setLeaf_leaf ?_
    funext w
    by_cases hw : w = v
    · subst hw
      have hqt : q ≠ t := fun hqt => (hH.of_leaf hm).1 (.inl (hqt ▸ htN))
      refine page_mapped (p := q) (n := G.refs q) ?_ ?_
      · rw [setLeaf_same, Pte.share_maps]
        exact hm
      · exact (hcell q hqt).trans (hH.cell_leaf hm)
    · exact hpage w hw
  · rename_i hno
    refine hQ G h hH (.refl _ G h) rfl ?_ rfl
    rw [show (G.leaf id v).share = G.leaf id v from if_neg hno, update_eq_self]

/-! ## `uvmcopy` -/

theorem Pte.share_share (e : Pte) : e.share.share = e.share := by
  unfold Pte.share
  split_ifs <;> rfl

/-- Entries below `sz` that user mode can use may have been shared. -/
def Shares (sz : ℕ) (f f' : ℕ → Pte) : Prop :=
  ∀ v, f' v = f v ∨ v * pgSize < sz ∧ (f v).u = true ∧ f' v = (f v).share

theorem Shares.touches {f f' : ℕ → Pte} (hs : Shares sz f f') : Touches sz f f' := by
  intro v
  rcases hs v with heq | ⟨hv, hu, heq⟩
  · exact .inl heq
  · refine .inr ⟨hv, ?_⟩
    rw [heq, Pte.share_u, hu]

theorem Shares.share {f f' : ℕ → Pte} (hs : Shares sz f f') : (f' v).share = (f v).share := by
  rcases hs v with heq | ⟨_, _, heq⟩
  · rw [heq]
  · rw [heq, Pte.share_share]

theorem Shares.valid {f f' : ℕ → Pte} (hs : Shares sz f f') : (f' v).v = (f v).v := by
  rcases hs v with heq | ⟨_, _, heq⟩
  · rw [heq]
  · rw [heq]
    unfold Pte.share
    split_ifs <;> rfl

theorem Shares.update {f f' : ℕ → Pte} (hs : Shares sz f f') (hv : v * pgSize < sz)
    (hu : (f' v).u = true) : Shares sz f (update f' v (f' v).share) := by
  intro w
  by_cases hw : w = v
  · subst hw
    rw [update_self]
    refine .inr ⟨hv, ?_⟩
    rcases hs w with heq | ⟨_, hfu, heq⟩
    · rw [heq] at hu ⊢
      exact ⟨hu, rfl⟩
    · rw [heq, Pte.share_share]
      exact ⟨hfu, rfl⟩
  · rw [update_of_ne hw]
    exact hs w

/-- `uvmcopy` has copied the entries below page `k`. -/
structure Copying (L : Layout) (old new : Tid) (sz k : ℕ) (G : Forest) (h : PageHeap) (G' : Forest)
    (h' : PageHeap) : Prop where
  holds : Holds L G' h'
  frame : Frame {old, new} G h G' h'
  node : G'.node old = G.node old
  share : Shares sz (G.leaf old) (G'.leaf old)
  copied : ∀ v, v < k → ((G.leaf old v).v = true →
    G'.leaf old v = (G.leaf old v).share ∧ G'.leaf new v = (G.leaf old v).share) ∧
    ((G.leaf old v).v = false → (G'.leaf new v).v = false)
  leaves : UserLeaves (G'.leaf new) k
  page_old : G'.page h' old = G.page h old
  page_new : ∀ v, v < k → G'.page h' new v = G.page h old v

theorem UserLeaves.add (hl : UserLeaves f n) (hn : n < tfVpn) (hu : e.v = true → e.u = true) :
    UserLeaves (update f n e) (n + 1) := by
  have h1 := tfVpn_eq
  have h2 := tpVpn_eq
  refine ⟨by omega, ?_, ?_, ?_, ?_⟩
  · intro v hv
    by_cases hvn : v = n
    · rw [hvn, update_self]
      exact fun hx => Unmappable.of_user (hu hx) hx
    · rw [update_of_ne hvn]
      exact hl.user v (by omega)
  · intro v hv hv1 hv2
    rw [update_of_ne (by omega)]
    exact hl.above v (by omega) hv1 hv2
  · rw [update_of_ne (by omega)]
    exact hl.trapframe
  · rw [update_of_ne (by omega)]
    exact hl.trampoline

namespace Copying

theorem start (hH : Holds L G h) (sz : ℕ) (hl : UserLeaves (G.leaf new) 0) :
    Copying L old new sz 0 G h G h :=
  ⟨hH, .refl _ G h, rfl, fun _ => .inl rfl, fun _ hv => absurd hv (Nat.not_lt_zero _), hl, rfl,
    fun _ hv => absurd hv (Nat.not_lt_zero _)⟩

section

variable (hc : Copying L old new sz k G h G' h')

include hc

/-- The parent has no page here. -/
theorem skip (hk : k < tfVpn) (hold : (G'.leaf old k).v = false) :
    Copying L old new sz (k + 1) G h G' h' := by
  have h1 := tfVpn_eq
  have h2 := tpVpn_eq
  have hfree : (G'.leaf new k).v = false := hc.leaves.above k (Nat.le_refl k) (by omega) (by omega)
  have hmaps : ∀ q, (G'.leaf old k).maps q = false := by
    intro q
    unfold Pte.maps
    rw [hold]
    rfl
  refine ⟨hc.holds, hc.frame, hc.node, hc.share, fun v hv => ?_, ?_, hc.page_old, fun v hv => ?_⟩
  · by_cases hvk : v = k
    · subst hvk
      rw [hc.share.valid] at hold
      exact ⟨fun hx => (by rw [hold] at hx; cases hx), fun _ => hfree⟩
    · exact hc.copied v (by omega)
  · have := hc.leaves.add (e := G'.leaf new k) hk fun hx => by rw [hfree] at hx; cases hx
    rwa [update_eq_self] at this
  · by_cases hvk : v = k
    · rw [hvk, ← hc.page_old, page_unmapped hmaps, page_unmapped]
      intro q
      unfold Pte.maps
      rw [hfree]
      rfl
    · exact hc.page_new v (by omega)

/-- The parent's entry is made read-only. -/
theorem shared (hk : k * pgSize < sz) (hne : old ≠ new) (hH : Holds L G'' h'')
    (hf : Frame {old} G' h' G'' h'') (hn : G''.node = G'.node)
    (hl : G''.leaf old = update (G'.leaf old) k (G'.leaf old k).share)
    (hu : (G'.leaf old k).u = true) (hp : G''.page h'' old = G'.page h' old) :
    Copying L old new sz k G h G'' h'' := by
  have hnew : new ∉ ({old} : Set Tid) := fun hx => hne (Set.mem_singleton_iff.mp hx).symm
  refine ⟨hH, hc.frame.trans (hf.mono fun x hx => .inl hx), ?_, ?_, fun v hv => ?_, ?_,
    hp.trans hc.page_old, ?_⟩
  · rw [hn, hc.node]
  · rw [hl]
    exact hc.share.update hk hu
  · rw [hf.leaf new hnew, hl, update_of_ne (Nat.ne_of_lt hv)]
    exact hc.copied v hv
  · rw [hf.leaf new hnew]
    exact hc.leaves
  · intro v hv
    rw [hf.page new hnew, hc.page_new v hv]

/-- The child's table has grown. -/
theorem grow (hne : old ≠ new) (hg : Grown L new v G' h' b G'' h'' b') :
    Copying L old new sz k G h G'' h'' := by
  refine ⟨hg.holds, hc.frame.trans ((hg.frame hc.holds).mono fun x hx => .inr hx), ?_, ?_, ?_, ?_,
    ?_, ?_⟩
  · rw [← hc.node]
    exact funext fun π => hg.other old π fun hx => hne hx.1
  · rw [hg.leaf]
    exact hc.share
  · rw [hg.leaf]
    exact hc.copied
  · rw [hg.leaf]
    exact hc.leaves
  · rw [hg.page hc.holds]
    exact hc.page_old
  · intro v hv
    rw [hg.page hc.holds]
    exact hc.page_new v hv

/-- The parent's page gets an entry in the child's table, and a reference. -/
theorem snoc {f : ℕ → UInt8} (hne : old ≠ new) (hk : k < tfVpn)
    (ht : G'.node new (botOf k) = some t)
    (hold : (G'.leaf old k).maps q = true) (hs : G'.leaf old k = (G.leaf old k).share)
    (hq : h' q = some (n, .bytes f)) :
    Copying L old new sz (k + 1) G h (G'.setLeaf new k (G'.leaf old k))
      ((Holds.setEntry h' t (G'.entries new (botOf k)) (ix0 k) (G'.leaf old k)).set q
        (some (n + 1, .bytes f))) := by
  have h1 := tfVpn_eq
  have h2 := tpVpn_eq
  have h3 := maxVpn_eq
  have hkm : k < maxVpn := by omega
  have hfree : ∀ r, (G'.leaf new k).maps r = false := by
    intro r
    unfold Pte.maps
    rw [hc.leaves.above k (Nat.le_refl k) (by omega) (by omega)]
    rfl
  have htN : G'.Node t := ⟨new, _, ht⟩
  have hw : (G'.leaf old k).w = false := by rw [hs, Pte.share_w]
  have hH' := hc.holds.share hkm ht hfree hold hw hold hw hq
  have hqk := (hc.holds.of_leaf hold).1
  have hval : ∀ r, r ≠ t →
    ((Holds.setEntry h' t (G'.entries new (botOf k)) (ix0 k) (G'.leaf old k)).set q
      (some (n + 1, .bytes f)) r).val = (h' r).val := by
    intro r hr
    by_cases hrq : r = q
    · rw [hrq, set_same, hq]
      rfl
    · rw [set_ne _ _ hrq, Holds.setEntry_ne _ _ _ _ hr]
  have hpriv :
    ∀ r ∈ G'.priv, (Holds.setEntry h' t (G'.entries new (botOf k)) (ix0 k) (G'.leaf old k)).set q
      (some (n + 1, .bytes f)) r = h' r := by
    intro r hr
    rw [set_ne, Holds.setEntry_ne]
    · rintro rfl
      exact hc.holds.apart r htN hr
    · rintro rfl
      exact hqk (.inr hr)
  obtain ⟨hframe, hpage⟩ := Frame.of_setLeaf hc.holds hH' ht (fun r hr => .inl (hval r hr)) hpriv
  have hnew : old ∉ ({new} : Set Tid) := fun hx => hne (Set.mem_singleton_iff.mp hx)
  refine ⟨hH', hc.frame.trans (hframe.mono fun x hx => .inr hx), hc.node, ?_, fun v hv => ?_, ?_,
    ?_, ?_⟩
  · rw [setLeaf_id hne]
    exact hc.share
  · rw [setLeaf_id hne, setLeaf_leaf]
    by_cases hvk : v = k
    · subst hvk
      rw [update_self]
      refine ⟨fun _ => ⟨hs, hs⟩, fun hx => ?_⟩
      rw [← hc.share.valid, (maps_iff.mp hold).1] at hx
      cases hx
    · rw [update_of_ne hvk]
      exact hc.copied v (by omega)
  · rw [setLeaf_leaf]
    exact hc.leaves.add hk fun _ => (maps_iff.mp hold).2.1
  · rw [hframe.page old hnew]
    exact hc.page_old
  · intro v hv
    by_cases hvk : v = k
    · subst hvk
      rw [← hc.page_old, page_mapped hold hq]
      refine page_mapped (p := q) (n := n + 1) ?_ (set_same _ _ _)
      rw [setLeaf_same]
      exact hold
    · rw [hpage v hvk]
      exact hc.page_new v (by omega)

end

end Copying

section

variable {Q : Post Bool} (hne : old ≠ new) (hold : G.node old .root = some pt)
  (hnew : G.node new .root = some np) {psz : ℕ} (hl : UserLeaves (G.leaf old) (pageCount psz))
  (hsz : sz ≤ psz)

include hne hold hnew hl hsz

theorem copyPage_spec (hc : Copying L old new sz k G h G' h') (hk : k < pageCount sz)
    (hok : ∀ G'' h'' b', Copying L old new sz (k + 1) G h G'' h'' → Q true h'' b')
    (hfail : ∀ G'' h'' b', Copying L old new sz k G h G'' h'' → Q false h'' b') :
    Spec L E Q (copyPage L pt np k) h' b := by
  have h1 := tfVpn_eq
  have h2 := tpVpn_eq
  have h3 := maxVpn_eq
  have hb := hl.bound
  have hl' := hl.touch (hc.share.touches.mono hsz)
  have hmono := pageCount_mono hsz
  have hksz := lt_pageCount.mp hk
  have hdiv : k * pgSize / pgSize = k := Nat.mul_div_cancel k (by decide)
  have hva : k * pgSize < maxVa := by
    unfold maxVa pgSize
    omega
  have hkm : k < maxVpn := by omega
  unfold copyPage
  refine wp_seq (walk_find hc.holds ((hc.frame.root old).trans hold) hva ?_ ?_)
  · intro hn
    rw [hdiv] at hn
    refine hok G' h' b (hc.skip (by omega) ?_)
    rw [hc.holds.toShape.leaf_zero hn]
    rfl
  intro t ht
  rw [hdiv] at ht ⊢
  refine wp_seq (readPte_spec (hc.holds.table old _ t ht) ?_)
  rw [Shape.entry hkm]
  split
  · rename_i hv
    exact hok G' h' b (hc.skip (by omega) hv)
  rename_i hv
  have hv : (G'.leaf old k).v = true := by simpa using hv
  have hu := (hl'.user k (hk.trans_le hmono) hv).1
  have hm : (G'.leaf old k).maps (G'.leaf old k).ppn = true := maps_iff.mpr ⟨hv, hu, rfl⟩
  refine wp_seq (sharePte_spec hc.holds hkm ht hm ?_)
  intro G1 h1 hH1 hf1 hn1 hl1 hp1
  have hc1 := hc.shared hksz hne hH1 hf1 hn1 hl1 hu hp1
  have hleaf1 : G1.leaf old k = (G'.leaf old k).share := by rw [hl1, update_self]
  have hfree1 : (G1.leaf new k).v = false :=
    hc1.leaves.above k (Nat.le_refl k) (by omega) (by omega)
  rw [mappages_one (Nat.mul_mod_left k pgSize)]
  refine wp_seq (mapLoop_succ hH1 ((hc1.frame.root new).trans hnew) hva ?_ ?_ ?_)
  · rw [hdiv]
    exact hfree1
  · intro G2 h2 b2 hg _ _
    exact hfail G2 h2 b2 (hc1.grow hne hg)
  · intro G2 h2 b2 t2 hg ht2
    rw [hdiv] at hg ht2 ⊢
    rw [Pte.share_eta hv]
    have hc2 := hc1.grow hne hg
    have hleaf2 : G2.leaf old k = (G'.leaf old k).share := by rw [hg.leaf, hleaf1]
    have hm2 : (G2.leaf old k).maps (G'.leaf old k).ppn = true := by
      rw [hleaf2, Pte.share_maps]
      exact hm
    have hcell := hc2.holds.cell_leaf hm2
    have hqt : (G'.leaf old k).ppn ≠ t2 := fun hx =>
      (hc2.holds.of_leaf hm2).1 (.inl (hx ▸ ⟨new, _, ht2⟩))
    rw [← hleaf2]
    refine wp_seq (krefIncr_spec (hc2.holds.managed_of_leaf hm2)
      ((Holds.setEntry_ne _ _ _ _ hqt).trans hcell) ?_)
    refine hok _ _ b2 (hc2.snoc hne (by omega) ht2 hm2 ?_ hcell)
    rw [hleaf2, hc.share.share]

theorem copyLoop_spec (hc : Copying L old new sz k G h G' h') (hk : k + n = pageCount sz)
    (hok : ∀ G'' h'' b', Copying L old new sz (pageCount sz) G h G'' h'' → Q true h'' b')
    (hfail : ∀ G'' h'' b', Copying L old new sz 0 G h G'' h'' → Q false h'' b') :
    Spec L E Q (copyLoop L pt np n k) h' b := by
  induction n generalizing k G' h' b with
  | zero =>
    refine hok G' h' b ?_
    rwa [← hk, Nat.add_zero]
  | succ n ih =>
    refine wp_seq (copyPage_spec hne hold hnew hl hsz hc (by omega) ?_ ?_)
    · intro G'' h'' b' hc'
      rw [if_pos rfl]
      exact ih hc' (by omega)
    · intro G1 h1 b1 hc1
      rw [if_neg Bool.false_ne_true]
      have htf := tfVpn_eq
      have hmax := maxVpn_eq
      have hb := hc1.leaves.bound
      have hne' : old ∉ ({new} : Set Tid) := fun hx => hne (Set.mem_singleton_iff.mp hx)
      refine wp_seq (uvmunmap_vpn (v := 0) hc1.holds ((hc1.frame.root new).trans hnew)
        (Nat.zero_mul _).symm (by omega) (fun w _ hw => hc1.leaves.user w (by omega)) ?_)
      intro G2 h2 b2 hu
      refine hfail G2 h2 b2
        ⟨hu.holds, hc1.frame.trans (hu.frame.mono fun x hx => .inr hx), ?_, ?_,
        fun _ hv => absurd hv (Nat.not_lt_zero _), ?_, ?_,
        fun _ hv => absurd hv (Nat.not_lt_zero _)⟩
      · rw [hu.node]
        exact hc1.node
      · rw [hu.frame.leaf old hne']
        exact hc1.share
      · rw [hu.leaf]
        exact hc1.leaves.clear (Nat.zero_le _)
      · rw [hu.frame.page old hne']
        exact hc1.page_old

/-- **`uvmcopy`**: the child has the parent's memory, or its table is empty again. -/
theorem uvmcopy_spec (hH : Holds L G h) (hl0 : UserLeaves (G.leaf new) 0)
    (hok : ∀ G' h' b', Copying L old new sz (pageCount sz) G h G' h' → Q true h' b')
    (hfail : ∀ G' h' b', Copying L old new sz 0 G h G' h' → Q false h' b') :
    Spec L E Q (uvmcopy L pt np sz) h b :=
  copyLoop_spec hne hold hnew hl hsz (.start hH sz hl0) (Nat.zero_add _) hok hfail

end

/-! ## What a process holds -/

/-- A pointer to a page, 0 for null. -/
def ptr (p : ℕ) : Option ℕ := if p = 0 then none else some p

theorem ptr_ne (hp : p ≠ 0) : ptr p = some p := if_neg hp

theorem Layout.pos_of_managed (hp : p ∈ L.managed) : p ≠ 0 := by
  have h1 := (Layout.mem_managed.mp hp).1
  have h2 := L.data
  have h3 : 0 < L.etext := Nat.lt_of_le_of_lt (Nat.zero_le _) L.text
  omega

theorem Holds.root_pos (hH : Holds L G h) (hp : G.node id .root = some p) : p ≠ 0 :=
  Layout.pos_of_managed (hH.managed_of_kern (.inl ⟨id, _, hp⟩))

/-- The trapframe and the kernel stack of slot `i`. -/
def slotPages (G : Forest) (i : Slot) (p : Proc) : Set ℕ :=
  {p.trapframe} ∪ (G.leaf (.kern i) (p.kstack / pgSize)).stack

/-- The tables and pages of slot `i` are those of its record. -/
structure SlotMem (L : Layout) (G : Forest) (i : Slot) (p : Proc) : Prop where
  pagetable : G.node (.user i) .root = ptr p.pagetable
  leaves : UserLeaves (G.leaf (.user i)) (pageCount p.sz)
  kpagetable : G.node (.kern i) .root = ptr p.kpagetable
  kstack : p.kstack % pgSize = 0 ∧ p.kstack / pgSize < maxVpn
  kleaves : KernLeaves (kernPages (regions L) ∪ {p.kstack / pgSize}) (G.leaf (.kern i))
  stack : ∀ q ∈ (G.leaf (.kern i) (p.kstack / pgSize)).stack, q ∈ G.priv ∧ q ≠ p.trapframe
  trapframe : p.trapframe ≠ 0 → p.trapframe ∈ G.priv

/-- A change of another process, of the user page table, or of the size. -/
theorem SlotMem.change {i : Slot} {p p' : Proc} (hs : SlotMem L G i p)
    (huser : G'.node (.user i) .root = G.node (.user i) .root)
    (hleaves : UserLeaves (G'.leaf (.user i)) (pageCount p'.sz))
    (hkern : G'.node (.kern i) .root = G.node (.kern i) .root)
    (hkleaf : G'.leaf (.kern i) = G.leaf (.kern i))
    (hpriv : ∀ q ∈ slotPages G i p, q ∈ G.priv → q ∈ G'.priv)
    (hpt : p'.pagetable = p.pagetable) (hkpt : p'.kpagetable = p.kpagetable)
    (htf : p'.trapframe = p.trapframe) (hks : p'.kstack = p.kstack) : SlotMem L G' i p' where
  pagetable := by rw [huser, hpt, hs.pagetable]
  leaves := hleaves
  kpagetable := by rw [hkern, hkpt, hs.kpagetable]
  kstack := by
    rw [hks]
    exact hs.kstack
  kleaves := by
    rw [hks, hkleaf]
    exact hs.kleaves
  stack q hq := by
    rw [hks, hkleaf] at hq
    obtain ⟨h1, h2⟩ := hs.stack q hq
    exact ⟨hpriv q (.inr hq) h1, by rwa [htf]⟩
  trapframe hx := by
    rw [htf] at hx ⊢
    exact hpriv _ (.inl rfl) (hs.trapframe hx)

/-- Slot `i` holds nothing. -/
structure Vacated (L : Layout) (i : Slot) (T : Set ℕ) (G : Forest) (h : PageHeap) (G' : Forest)
    (h' : PageHeap) : Prop where
  holds : Holds L G' h'
  rest : Rest {.user i, .kern i} G h G' h'
  user : G'.node (.user i) .root = none
  kern : G'.node (.kern i) .root = none
  priv : G'.priv = T

section

variable {i : Slot} {p : Proc} {Q : Post Unit}

/-- **`freeproc`.** -/
theorem freeprocMem_spec (hH : Holds L G h) (hs : SlotMem L G i p)
    (hQ : ∀ G' h' b', Vacated L i (G.priv \ slotPages G i p) G h G' h' → Q () h' b') :
    Spec L E Q (freeprocMem L p) h b := by
  have huk : Tid.user i ∉ ({Tid.kern i} : Set Tid) := fun hx => nomatch hx
  have hku : Tid.kern i ∉ ({Tid.user i} : Set Tid) := fun hx => nomatch hx
  unfold freeprocMem unlessNull
  -- the trapframe
  have h1 : Spec L E (fun _ h1 _ => ∃ G1, Holds L G1 h1 ∧ Rest ∅ G h G1 h1 ∧
      G1.priv = G.priv \ {p.trapframe})
      (if p.trapframe ≠ 0 then kfree L p.trapframe else .ret ()) h b := by
    split
    · rename_i hp
      refine kfree_priv hH (hs.trapframe hp) fun b' _ => ?_
      exact ⟨_, hH.dropPriv (hs.trapframe hp), .dropPriv hH (hs.trapframe hp) ∅, rfl⟩
    · rename_i hp
      refine ⟨G, hH, .refl ∅ G h, ?_⟩
      rw [not_not] at hp
      rw [hp, Set.sdiff_singleton_eq_self]
      exact fun hx => Layout.pos_of_managed (hH.managed_of_kern (.inr hx)) rfl
  refine wp_seq (wp_mono ?_ h1)
  rintro _ h1 b1 ⟨G1, hH1, hr1, hp1⟩
  have hleaf1 := hr1.leaf (.kern i) (Set.notMem_empty _)
  -- the kernel page table
  have h2 : Spec L E (fun _ h2 _ => ∃ G2, Holds L G2 h2 ∧ Rest {.kern i} G1 h1 G2 h2 ∧
      G2.node (.kern i) .root = none ∧ G2.priv = G.priv \ slotPages G i p)
      (if p.kpagetable ≠ 0 then procFreeKpagetable L p.kpagetable p.kstack else .ret ()) h1 b1 := by
    have hpages : G.priv \ slotPages G i p =
        G1.priv \ (G1.leaf (.kern i) (p.kstack / pgSize)).stack := by
      rw [hp1, hleaf1]
      unfold slotPages
      rw [Set.sdiff_sdiff]
    have hroot1 : G1.node (.kern i) .root = ptr p.kpagetable := by
      rw [hr1.node (.kern i) (Set.notMem_empty _)]
      exact hs.kpagetable
    split
    · rename_i hp
      refine procFreeKpagetable_spec hH1 (hroot1.trans (ptr_ne hp)) hs.kstack.1 hs.kstack.2 ?_ ?_ ?_
      · rw [hleaf1]
        exact hs.kleaves
      · intro hv
        rw [hleaf1] at hv ⊢
        obtain ⟨hq, hne⟩ := hs.stack _ ⟨hv, rfl⟩
        rw [hp1]
        exact ⟨hq, hne⟩
      · intro G2 h2 b2 hH2 hr2 hn2 hp2
        exact ⟨G2, hH2, hr2, hn2, hp2.trans hpages.symm⟩
    · rename_i hp
      rw [not_not] at hp
      rw [hp] at hroot1
      refine ⟨G1, hH1, .refl _ G1 h1, hroot1, ?_⟩
      have hzero := hH1.toShape.leaf_zero (v := p.kstack / pgSize)
        (hH1.bot_up (.kern i) _ _ (hH1.mid_up (.kern i) _ hroot1))
      rw [hpages, hzero]
      ext q
      simp [Pte.stack, Pte.zero]
  refine wp_seq (wp_mono ?_ h2)
  rintro _ h2 b2 ⟨G2, hH2, hr2, hn2, hp2⟩
  have hr12 : Rest {.user i, .kern i} G h G2 h2 :=
    (hr1.mono (Set.empty_subset _)).trans (hr2.mono fun x hx => .inr hx)
  have hroot2 : G2.node (.user i) .root = ptr p.pagetable := by
    rw [hr2.node _ huk, hr1.node _ (Set.notMem_empty _)]
    exact hs.pagetable
  split
  · rename_i hp
    refine procFreepagetable_spec hH2 (hroot2.trans (ptr_ne hp)) ?_ ?_
    · rw [hr2.leaf _ huk, hr1.leaf _ (Set.notMem_empty _)]
      exact hs.leaves
    · intro G3 h3 b3 hf
      refine hQ G3 h3 b3 ⟨hf.holds, hr12.trans (hf.rest.mono fun x hx => .inl hx), ?_, ?_, ?_⟩
      · rw [hf.forest, dropTable_node_same]
      · rw [hf.rest.node _ hku]
        exact hn2
      · rw [hf.forest]
        exact hp2
  · rename_i hp
    rw [not_not] at hp
    rw [hp] at hroot2
    exact hQ G2 h2 b2 ⟨hH2, hr12, hroot2, hn2, hp2⟩

/-- The record of a slot without memory. -/
structure Blank (p : Proc) : Prop where
  pagetable : p.pagetable = 0
  kpagetable : p.kpagetable = 0
  trapframe : p.trapframe = 0
  sz : p.sz = 0
  kstack : p.kstack = 0

theorem zero_not_kernPages (L : Layout) : 0 ∉ kernPages (regions L) := by
  intro hv
  have := kernPages_bounds hv
  omega

/-- The kernel stacks are above the machine's memory and below the trampoline. -/
theorem kstackVa_vpn (i : Slot) : kstackVa i % pgSize = 0 ∧ 67108735 ≤ kstackVa i / pgSize ∧
    kstackVa i / pgSize < 67108863 := by
  have hi : (i : ℕ) < 64 := i.isLt
  unfold kstackVa Xv6.trampoline maxVa pgSize
  omega

theorem kstackVa_not_kernPages (L : Layout) (i : Slot) :
    kstackVa i / pgSize ∉ kernPages (regions L) := by
  intro hv
  have h1 := kstackVa_vpn i
  have h2 := kernPages_bounds hv
  omega

theorem UserLeaves.of_root (hH : Holds L G h) (hroot : G.node id .root = none) :
    UserLeaves (G.leaf id) 0 := by
  have hleaf : G.leaf id = fun _ => .zero := funext fun v =>
    hH.toShape.leaf_zero (hH.bot_up _ _ _ (hH.mid_up _ _ hroot))
  rw [hleaf]
  exact .zero

theorem KernLeaves.of_root (hH : Holds L G h) (hroot : G.node id .root = none) (S : Set ℕ) :
    KernLeaves S (G.leaf id) := by
  have hleaf : G.leaf id = fun _ => .zero := funext fun v =>
    hH.toShape.leaf_zero (hH.bot_up _ _ _ (hH.mid_up _ _ hroot))
  rw [hleaf]
  exact fun _ => ⟨nofun, nofun⟩

theorem Blank.allocFound (hp : Blank p) (pid : ℤ) : Blank (allocFound p pid) :=
  ⟨hp.pagetable, hp.kpagetable, hp.trapframe, hp.sz, hp.kstack⟩

/-- Process `i` has a trapframe and a kernel page table, with what the kernel's own has and the
    kernel stack. -/
def KernView (L : Layout) (G : Forest) (i : Slot) (p : Proc) : Prop :=
  p.trapframe ≠ 0 ∧ p.kpagetable ≠ 0 ∧ p.kstack = kstackVa i ∧ ∃ stk, G.leaf (.kern i) =
    update (kernMap (regions L) fun _ => .zero) (kstackVa i / pgSize)
      (kernPte { r := true, w := true } stk 0)

theorem KernView.congr {i : Slot} {p p' : Proc} (hv : KernView L G i p)
    (hl : G'.leaf (.kern i) = G.leaf (.kern i)) (hk : p'.kpagetable = p.kpagetable)
    (hs : p'.kstack = p.kstack) (ht : p'.trapframe = p.trapframe) : KernView L G' i p' := by
  unfold KernView
  rw [hl, hk, hs, ht]
  exact hv

/-- A process has been allotted its memory in slot `i`. -/
structure Allotted (L : Layout) (i : Slot) (p : Proc) (G : Forest) (h : PageHeap) (G' : Forest)
    (h' : PageHeap) : Prop where
  view : KernView L G' i p
  holds : Holds L G' h'
  rest : Rest {.user i, .kern i} G h G' h'
  mem : SlotMem L G' i p
  priv : G'.priv = G.priv ∪ slotPages G' i p
  fresh : ∀ q ∈ slotPages G' i p, q ∉ G.priv
  user : G'.node (.user i) .root = some p.pagetable
  leaves : UserLeaves (G'.leaf (.user i)) 0

/-- What `allocproc` has obtained before the kernel stack: the record, the tables so far, and one
    private page. -/
structure Begun (L : Layout) (i : Slot) (p : Proc) (G : Forest) (h : PageHeap) (G' : Forest)
    (h' : PageHeap) : Prop where
  holds : Holds L G' h'
  rest : Rest {.user i, .kern i} G h G' h'
  user : G'.node (.user i) .root = ptr p.pagetable
  leaves : UserLeaves (G'.leaf (.user i)) 0
  kern : G'.node (.kern i) .root = ptr p.kpagetable
  kleaves : KernLeaves (kernPages (regions L)) (G'.leaf (.kern i))
  sz : p.sz = 0
  kstack : p.kstack = 0
  priv : G'.priv \ {p.trapframe} = G.priv
  trapframe : p.trapframe ≠ 0 → p.trapframe ∈ G'.priv

namespace Begun

theorem start (hH : Holds L G h) (hb : Blank p) (hu : G.node (.user i) .root = none)
    (hk : G.node (.kern i) .root = none) : Begun L i p G h G h where
  holds := hH
  rest := .refl _ G h
  user := by rw [hu, hb.pagetable]; rfl
  leaves := .of_root hH hu
  kern := by rw [hk, hb.kpagetable]; rfl
  kleaves := .of_root hH hk _
  sz := hb.sz
  kstack := hb.kstack
  priv := by
    rw [hb.trapframe, Set.sdiff_singleton_eq_self]
    exact fun hx => Layout.pos_of_managed (hH.managed_of_kern (.inr hx)) rfl
  trapframe hx := absurd hb.trapframe hx

section

variable (hp : Begun L i p G h G' h')

include hp

theorem slotPages_eq : slotPages G' i p = {p.trapframe} := by
  have hnone : (G'.leaf (.kern i) (p.kstack / pgSize)).v = false := by
    rw [hp.kstack, Nat.zero_div]
    exact hp.kleaves.free (zero_not_kernPages L)
  unfold slotPages
  ext q
  simp [Pte.stack, hnone]

theorem slotMem : SlotMem L G' i p where
  pagetable := hp.user
  leaves := by
    rw [hp.sz]
    exact hp.leaves
  kpagetable := hp.kern
  kstack := by
    rw [hp.kstack]
    exact ⟨rfl, by decide⟩
  kleaves := hp.kleaves.mono Set.subset_union_left
  stack q hq := by
    rw [hp.kstack, Nat.zero_div] at hq
    exact absurd ((hp.kleaves _).2 hq.1) (zero_not_kernPages L)
  trapframe := hp.trapframe

/-- `freeproc` on the way out. -/
theorem back {Q : Post (Option Proc)}
    (hfail : ∀ G' h' b', Vacated L i G.priv G h G' h' → Q none h' b') :
    Spec L E Q (do freeprocMem L p; .ret none) h' b := by
  refine wp_seq (freeprocMem_spec hp.holds hp.slotMem ?_)
  intro G'' h'' b' hv
  refine hfail G'' h'' b' ⟨hv.holds, hp.rest.trans hv.rest, hv.user, hv.kern, ?_⟩
  rw [hv.priv, hp.slotPages_eq, hp.priv]

/-- The trapframe page. -/
theorem addTrapframe (ht : p.trapframe = 0) (htf : t ∈ L.managed) (hn : h' t = none)
    (d : PageData) :
    Begun L i { p with trapframe := t } G h (G'.addPriv t) (h'.set t (some (1, d))) where
  holds := hp.holds.addPriv htf hn
  rest := hp.rest.trans (.addPriv hp.holds hn _ d)
  user := hp.user
  leaves := hp.leaves
  kern := hp.kern
  kleaves := hp.kleaves
  sz := hp.sz
  kstack := hp.kstack
  priv := by
    have hnot : t ∉ G'.priv := fun hx => hp.holds.not_kern_of_none hn (.inr hx)
    rw [← hp.priv, ht]
    ext q
    have h0 : q ∈ G'.priv → q ≠ 0 := fun hq =>
      Layout.pos_of_managed (hp.holds.managed_of_kern (.inr hq))
    simp only [Set.mem_sdiff, mem_addPriv, Set.mem_singleton_iff]
    constructor
    · rintro ⟨rfl | hq, hne⟩
      · exact absurd rfl hne
      · exact ⟨hq, h0 hq⟩
    · rintro ⟨hq, _⟩
      refine ⟨.inr hq, ?_⟩
      rintro rfl
      exact hnot hq
  trapframe _ := .inl rfl

/-- The user page table. -/
theorem addPagetable {G'' : Forest} {h'' : PageHeap} (hI : Image L (.user i) G' h' pt 0 G'' h'') :
    Begun L i { p with pagetable := pt } G h G'' h'' where
  holds := hI.holds
  rest := hp.rest.trans (hI.rest.mono fun x hx => .inl hx)
  user := by rw [hI.root, ptr_ne (hI.holds.root_pos hI.root)]
  leaves := hI.leaves
  kern := by
    rw [hI.node (.kern i) nofun]
    exact hp.kern
  kleaves := by
    rw [hI.leaf (.kern i) nofun]
    exact hp.kleaves
  sz := hp.sz
  kstack := hp.kstack
  priv := by
    rw [hI.priv]
    exact hp.priv
  trapframe hx := by
    rw [hI.priv]
    exact hp.trapframe hx

/-- The kernel page table. -/
theorem addKpagetable {G'' : Forest} {h'' : PageHeap}
    (hk : KernTable L (.kern i) pt G' h' G'' h'') :
    Begun L i { p with kpagetable := pt } G h G'' h'' where
  holds := hk.holds
  rest := hp.rest.trans (hk.rest.mono fun x hx => .inr hx)
  user := by
    rw [hk.rest.node (.user i) fun hx => nomatch hx]
    exact hp.user
  leaves := by
    rw [hk.rest.leaf (.user i) fun hx => nomatch hx]
    exact hp.leaves
  kern := by rw [hk.root, ptr_ne (hk.holds.root_pos hk.root)]
  kleaves := hk.leaves
  sz := hp.sz
  kstack := hp.kstack
  priv := by
    rw [hk.priv]
    exact hp.priv
  trapframe hx := by
    rw [hk.priv]
    exact hp.trapframe hx

/-- The kernel stack. -/
theorem allot {G1 G2 : Forest} {h1 h2 : PageHeap} {stk : ℕ} {d : PageData}
    (hn : h' stk = none) (hG : G1 = G'.addPriv stk) (hh : h1 = h'.set stk (some (1, d)))
    (hb : Built L (.kern i) G1 h1 G2 h2)
    (hl : G2.leaf (.kern i) = update (G'.leaf (.kern i)) (kstackVa i / pgSize)
      (kernPte { r := true, w := true } stk 0))
    (hmap : G'.leaf (.kern i) = kernMap (regions L) fun _ => .zero) (htf : p.trapframe ≠ 0)
    (hpt : p.pagetable ≠ 0) (hkpt : p.kpagetable ≠ 0) :
    Allotted L i { p with kstack := kstackVa i } G h G2 h2 := by
  subst hG hh
  have hnu : Tid.user i ∉ ({Tid.kern i} : Set Tid) := fun hx => nomatch hx
  have hnot : stk ∉ G'.priv := fun hx => hp.holds.not_kern_of_none hn (.inr hx)
  have hpriv : G2.priv = insert stk G'.priv := hb.frame.priv
  have hstack : (G2.leaf (.kern i) (kstackVa i / pgSize)).stack = {stk} := by
    rw [hl, update_self]
    ext q
    simp [Pte.stack, kernPte]
  have hpages : slotPages G2 i { p with kstack := kstackVa i } = {p.trapframe, stk} := by
    unfold slotPages
    rw [hstack]
    rfl
  have hroot : G2.node (.user i) .root = ptr p.pagetable := by
    rw [hb.frame.node _ hnu]
    exact hp.user
  have hleaves : UserLeaves (G2.leaf (.user i)) 0 := by
    rw [hb.frame.leaf _ hnu]
    exact hp.leaves
  obtain ⟨hal, hlo, hhi⟩ := kstackVa_vpn i
  have htfp := hp.trapframe htf
  have hold : G'.priv = insert p.trapframe G.priv := by
    rw [← hp.priv, Set.insert_sdiff_singleton, Set.insert_eq_of_mem htfp]
  refine ⟨⟨htf, hkpt, rfl, stk, by rw [hl, hmap]⟩, hb.holds,
    hp.rest.trans ((Rest.addPriv hp.holds hn _ d).trans (hb.frame.rest.mono
    fun x hx => .inr hx)), ⟨hroot, ?_, ?_, ⟨hal, ?_⟩, ?_, ?_, ?_⟩, ?_, ?_, ?_, hleaves⟩
  · show UserLeaves _ (pageCount p.sz)
    rw [hp.sz]
    exact hleaves
  · rw [hb.frame.root]
    exact hp.kern
  · show kstackVa i / pgSize < maxVpn
    rw [maxVpn_eq]
    omega
  · rw [hl, ← setRange_one]
    refine (hp.kleaves.map rfl (by decide)).mono ?_
    rintro w (hw | ⟨hw1, hw2⟩)
    · exact .inl hw
    · exact .inr (by show w = kstackVa i / pgSize; omega)
  · intro q hq
    rw [hstack] at hq
    obtain rfl := Set.mem_singleton_iff.mp hq
    refine ⟨by rw [hpriv]; exact .inl rfl, ?_⟩
    rintro rfl
    exact hnot htfp
  · intro _
    rw [hpriv]
    exact .inr htfp
  · rw [hpages, hpriv, hold]
    ext q
    simp only [Set.mem_insert_iff, Set.mem_union, Set.mem_singleton_iff]
    tauto
  · intro q hq
    rw [hpages] at hq
    rcases hq with rfl | rfl
    · rw [← hp.priv]
      exact fun hx => hx.2 rfl
    · intro hx
      rw [hold] at hnot
      exact hnot (.inr hx)
  · rw [hroot, ptr_ne hpt]

end

end Begun

/-- **`allocproc`** in slot `i`. -/
theorem allocprocMem_spec {Q : Post (Option Proc)} {pid : ℤ} (hE : E .uvmmap) (hH : Holds L G h)
    (hb : Blank p) (hu : G.node (.user i) .root = none) (hk : G.node (.kern i) .root = none)
    (hfail : ∀ G' h' b', Vacated L i G.priv G h G' h' → Q none h' b')
    (hok : ∀ G' h' b' m, Allotted L i (allocproc p i pid m) G h G' h' →
      Q (some (allocproc p i pid m)) h' b') : Spec L E Q (allocprocMem L i pid p) h b := by
  have hp0 : Begun L i (allocFound p pid) G h G h := .start hH (hb.allocFound pid) hu hk
  refine wp_seq (kalloc_spec (fun _ => hp0.back hfail) ?_)
  intro tf htf hfree _
  have hp1 := hp0.addTrapframe (hb.allocFound pid).trapframe htf hfree (.bytes fun _ => 5)
  have hu1 : (G.addPriv tf).node (.user i) .root = none := hu
  refine wp_seq (procPagetable_spec hp1.holds hu1 (fun _ => hp1.back hfail) ?_)
  intro pt G2 h2 b2 hI
  have hp2 := hp1.addPagetable hI
  have hk2 : G2.node (.kern i) .root = none := by
    rw [hI.node (.kern i) nofun]
    exact hk
  refine wp_seq (procKpagetable_spec hE hp2.holds hk2 (hp2.back hfail) ?_)
  intro kpt G3 h3 b3 hkt
  have hp3 := hp2.addKpagetable hkt
  refine wp_seq (kalloc_spec (fun _ => hp3.back hfail) ?_)
  intro stk hstk hfree3 _
  obtain ⟨hal, hlo, hhi⟩ := kstackVa_vpn i
  have hone : pgSize / pgSize = 1 := by decide
  have hH4 : Holds L (G3.addPriv stk) (h3.set stk (some (1, .bytes fun _ => 5))) :=
    hp3.holds.addPriv hstk hfree3
  refine wp_seq (wp_seq (mappages_kernel rfl hH4 hkt.root hal (by decide) (by decide)
    ?_ ?_ ?_ ?_))
  · rw [hone, maxVpn_eq]
    omega
  · intro w h1 h2
    rw [hone] at h2
    obtain rfl : w = kstackVa i / pgSize := by omega
    exact hkt.leaves.free (kstackVa_not_kernPages L i)
  · intro _ _ _ _ _ _ _
    exact hE
  · intro G5 h5 b5 hbuilt hl
    rw [hone, setRange_one] at hl
    have htf0 : tf ≠ 0 := Layout.pos_of_managed htf
    have hpt0 : pt ≠ 0 := hI.holds.root_pos hI.root
    exact hok G5 h5 b5 ⟨tf, pt, kpt⟩
      (hp3.allot hfree3 rfl rfl hbuilt hl hkt.map htf0 hpt0 (hkt.holds.root_pos hkt.root))

end

/-! ## `kfork` -/

/-- What `kfork` leaves alone, whichever way it ends. Entries of the parent may have become
    copy-on-write. -/
structure ForkKept (L : Layout) (i j : Slot) (sz : ℕ) (G : Forest) (h : PageHeap) (G' : Forest)
    (h' : PageHeap) : Prop where
  holds : Holds L G' h'
  rest : Rest {.user i, .user j, .kern j} G h G' h'
  node : G'.node (.user i) = G.node (.user i)
  share : Shares sz (G.leaf (.user i)) (G'.leaf (.user i))
  page : G'.page h' (.user i) = G.page h (.user i)

/-- Slot `j` has the child `np`, with the memory of the parent. -/
structure Forked (L : Layout) (i j : Slot) (sz : ℕ) (np : Proc) (G : Forest) (h : PageHeap)
    (G' : Forest)
    (h' : PageHeap) : Prop extends ForkKept L i j sz G h G' h' where
  view : KernView L G' j np
  mem : SlotMem L G' j np
  user : G'.node (.user j) .root = some np.pagetable
  priv : G'.priv = G.priv ∪ slotPages G' j np
  fresh : ∀ q ∈ slotPages G' j np, q ∉ G.priv
  copy : ∀ v, v < pageCount sz → G'.page h' (.user j) v = G.page h (.user i) v

/-- Slot `j` holds nothing. -/
structure Unforked (L : Layout) (i j : Slot) (sz : ℕ) (G : Forest) (h : PageHeap) (G' : Forest)
    (h' : PageHeap) : Prop extends ForkKept L i j sz G h G' h' where
  user : G'.node (.user j) .root = none
  kern : G'.node (.kern j) .root = none
  priv : G'.priv = G.priv

section

variable {i j : Slot} {p p' : Proc}

/-- The child's record and table after `uvmcopy`. -/
theorem Copying.slotMem {G1 : Forest} {h1 : PageHeap} (hs : SlotMem L G1 j p)
    (hc : Copying L (.user i) (.user j) sz k G1 h1 G' h') (hk : pageCount p'.sz = k)
    (hpt : p'.pagetable = p.pagetable) (hkpt : p'.kpagetable = p.kpagetable)
    (htf : p'.trapframe = p.trapframe) (hks : p'.kstack = p.kstack) : SlotMem L G' j p' := by
  have hne : Tid.kern j ∉ ({.user i, .user j} : Set Tid) := not_mem_pair nofun nofun
  refine hs.change (hc.frame.root _) ?_ (hc.frame.root _) (hc.frame.leaf _ hne) ?_ hpt hkpt htf hks
  · rw [hk]
    exact hc.leaves
  · intro q _ hq
    rw [hc.frame.priv]
    exact hq

theorem slotPages_congr (hl : G'.leaf (.kern j) = G.leaf (.kern j))
    (htf : p'.trapframe = p.trapframe)
    (hks : p'.kstack = p.kstack) : slotPages G' j p' = slotPages G j p := by
  unfold slotPages
  rw [hl, htf, hks]

variable (hij : i ≠ j)

include hij

theorem Copying.kept {G1 : Forest} {h1 : PageHeap} (hr : Rest {.user j, .kern j} G h G1 h1)
    (hc : Copying L (.user i) (.user j) sz k G1 h1 G' h') : ForkKept L i j sz G h G' h' := by
  have hne : Tid.user i ∉ ({.user j, .kern j} : Set Tid) := not_mem_pair (user_ne hij) nofun
  refine ⟨hc.holds, ?_, ?_, ?_, ?_⟩
  · refine (hr.mono fun x hx => .inr hx).trans (hc.frame.rest.mono ?_)
    rintro x (hx | hx)
    · exact .inl hx
    · exact .inr (.inl hx)
  · rw [hc.node, hr.node _ hne]
  · rw [← hr.leaf _ hne]
    exact hc.share
  · rw [hc.page_old, hr.page _ hne]

/-- **`kfork`** of process `i` with slot `j`. -/
theorem kfork_spec {Q : Post (Option Proc)} {pid : ℤ} (hE : E .uvmmap) (hH : Holds L G h)
    (hroot : G.node (.user i) .root = some p.pagetable)
    (hl : UserLeaves (G.leaf (.user i)) (pageCount p.sz)) (hb : Blank p')
    (hu : G.node (.user j) .root = none) (hk : G.node (.kern j) .root = none)
    (hfail : ∀ G' h' b', Unforked L i j p.sz G h G' h' → Q none h' b')
    (hok : ∀ G' h' b' m, Forked L i j p.sz (forkCopy p (allocproc p' j pid m)) G h G' h' →
      Q (some (forkCopy p (allocproc p' j pid m))) h' b') :
    Spec L E Q (kfork L p j pid p') h b := by
  have hne : Tid.user i ≠ .user j := user_ne hij
  have hno : Tid.user i ∉ ({.user j, .kern j} : Set Tid) := not_mem_pair hne nofun
  have hnk : Tid.kern j ∉ ({.user i, .user j} : Set Tid) := not_mem_pair nofun nofun
  refine wp_seq (allocprocMem_spec hE hH hb hu hk ?_ ?_)
  · intro G1 h1 b1 hv
    refine hfail G1 h1 b1
      ⟨⟨hv.holds, hv.rest.mono fun x hx => .inr hx, by rw [hv.rest.node _ hno], ?_, ?_⟩,
      hv.user, hv.kern, hv.priv⟩
    · rw [hv.rest.leaf _ hno]
      exact fun _ => .inl rfl
    · rw [hv.rest.page _ hno]
  intro G1 h1 b1 m ha
  have hroot1 : G1.node (.user i) .root = some p.pagetable := by
    rw [ha.rest.node _ hno]
    exact hroot
  have hl1 : UserLeaves (G1.leaf (.user i)) (pageCount p.sz) := by
    rw [ha.rest.leaf _ hno]
    exact hl
  have hpage1 : G1.page h1 (.user i) = G.page h (.user i) := ha.rest.page _ hno
  refine wp_seq (uvmcopy_spec hne hroot1 ha.user hl1 le_rfl ha.holds ha.leaves ?_ ?_)
  · intro G2 h2 b2 hc
    rw [if_pos rfl]
    have hpages : slotPages G2 j (forkCopy p (allocproc p' j pid m)) =
        slotPages G1 j (allocproc p' j pid m) := slotPages_congr (hc.frame.leaf _ hnk) rfl rfl
    refine hok G2 h2 b2 m ⟨hc.kept hij ha.rest, ha.view.congr (hc.frame.leaf _ hnk) rfl rfl rfl,
      hc.slotMem ha.mem rfl rfl rfl rfl rfl, ?_, ?_, ?_, ?_⟩
    · rw [hc.frame.root]
      exact ha.user
    · rw [hpages, hc.frame.priv, ha.priv]
    · rw [hpages]
      exact ha.fresh
    · intro v hv
      rw [hc.page_new v hv, hpage1]
  · intro G2 h2 b2 hc
    rw [if_neg Bool.false_ne_true]
    have hkept := hc.kept hij ha.rest
    have hmem : SlotMem L G2 j (allocproc p' j pid m) := by
      refine hc.slotMem ha.mem ?_ rfl rfl rfl rfl
      show pageCount p'.sz = 0
      rw [hb.sz]
      rfl
    refine wp_seq (freeprocMem_spec hc.holds hmem ?_)
    intro G3 h3 b3 hv
    refine hfail G3 h3 b3
      ⟨⟨hv.holds, hkept.rest.trans (hv.rest.mono fun x hx => .inr hx), ?_, ?_, ?_⟩, hv.user,
      hv.kern, ?_⟩
    · rw [hv.rest.node _ hno]
      exact hkept.node
    · rw [hv.rest.leaf _ hno]
      exact hkept.share
    · rw [hv.rest.page _ hno]
      exact hkept.page
    · rw [hv.priv, slotPages_congr (p := allocproc p' j pid m) (hc.frame.leaf _ hnk) rfl rfl,
        hc.frame.priv, ha.priv]
      ext q
      have hnew := ha.fresh q
      simp only [Set.mem_sdiff, Set.mem_union]
      tauto

end

end Xv6.Vm
