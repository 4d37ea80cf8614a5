/-
  The loader: `proc_pagetable`, `uvmalloc`, `loadseg` and the loop over the program headers.

  Whatever the headers say, the table stays an `Image` with all pages below the size mapped: the
  pages are the process's own, so there are no more of them than the machine has, and no address
  comes near the trapframe.
-/
import Xv6.Vm.ImageSpec

namespace Xv6.Vm

open Lib Function Forest Heap

variable {L : Layout} {E : Panic → Prop} {G G' G'' G₀ : Forest} {h h' h'' h₀ : PageHeap}
  {id id' : Tid} {p q t v w n m va pa pt sz tf b b' : ℕ} {e : Pte} {perm xperm : Flags}

/-! ## `proc_pagetable` -/

theorem UserLeaves.zero : UserLeaves (fun _ => .zero) 0 where
  bound := Nat.zero_le _
  user _ hv := absurd hv (Nat.not_lt_zero _)
  above _ _ _ _ := rfl
  trapframe hv := nomatch hv
  trampoline hv := nomatch hv

/-- A root is added: a page that was free. -/
def Forest.addRoot (G : Forest) (id : Tid) (p : ℕ) : Forest :=
  ((G.addPriv p).setNode id .root (some p)).dropPriv p

/-- An empty table. -/
theorem Image.create (hH : Holds L G h) (hnew : G.node id .root = none) (hp : p ∈ L.managed)
    (hfree : h p = none) :
    Image L id G h p 0 (G.addRoot id p) (h.set p (some (1, .table fun _ => .zero))) := by
  have hk := hH.not_kern_of_none hfree
  have hbot : ∀ i j, G.node id (.bot i j) = none := fun i j => hH.bot_up _ i j (hH.mid_up _ i hnew)
  have hleaf : G.leaf id = fun _ => .zero := funext fun v => hH.toShape.leaf_zero (hbot _ _)
  refine ⟨hH, hnew, (hH.addPriv hp hfree).addRoot hnew (.inl rfl) (set_same h p _), ?_, ?_,
    fun _ _ => rfl, ?_, ⟨?_, ?_⟩, ?_, ?_⟩
  · unfold Forest.addRoot
    rw [dropPriv_node, setNode_same]
  · intro id' hid
    unfold Forest.addRoot
    rw [dropPriv_node, setNode_id hid]
    rfl
  · ext r
    unfold Forest.addRoot
    rw [mem_dropPriv, setNode_priv, mem_addPriv]
    constructor
    · rintro ⟨hr, hrp⟩
      exact hr.resolve_left hrp
    · intro hr
      refine ⟨.inr hr, ?_⟩
      rintro rfl
      exact hk (.inr hr)
  · intro r hr _
    refine set_ne h _ ?_
    rintro rfl
    exact hr hfree
  · intro r hr
    by_cases hrp : r = p
    · exact .inr (hrp ▸ hfree)
    · exact .inl ((node_setNode (G := G.addPriv p) hnew hrp).mp hr)
  · intro v q hm
    have hm : (G.leaf id v).maps q = true := hm
    rw [hleaf] at hm
    cases hm
  · change UserLeaves (G.leaf id) 0
    rw [hleaf]
    exact .zero

theorem uvmcreate_spec {Q : Post (Option ℕ)} (hfail : b = 0 → Q none h b)
    (hok : ∀ p, p ∈ L.managed → h p = none →
      Q (some p) (h.set p (some (1, .table fun _ => .zero))) (b - 1)) :
        Spec L E Q uvmcreate h b := by
  refine wp_seq (kalloc_spec hfail ?_)
  intro p hp hfree _
  refine wp_seq (write_spec (set_same h p _) ?_)
  rw [set_set]
  exact hok p hp hfree

/-- The table grows, and its entries stay. -/
theorem Image.rebuild (hI : Image L id G₀ h₀ pt n G h) (hb : Built L id G h G' h')
    (hl : G'.leaf id = G.leaf id) : Image L id G₀ h₀ pt n G' h' :=
  hI.step hb.holds hb.frame hb.keeps (fun v p hm => .inl (by rwa [hl] at hm))
    (by rw [hl]; exact hI.leaves)

/-- An entry that maps nothing for user mode changes. -/
theorem Image.setLeaf (hI : Image L id G₀ h₀ pt n G h) (hb : Built L id G h G' h')
    (hl : G'.leaf id = update (G.leaf id) v e) (he : ∀ q, e.maps q = false)
    (hu : UserLeaves (G'.leaf id) n) : Image L id G₀ h₀ pt n G' h' := by
  refine hI.step hb.holds hb.frame hb.keeps (fun w p hm => .inl ?_) hu
  rw [hl] at hm
  by_cases hw : w = v
  · rw [hw, update_self, he] at hm
    cases hm
  · rwa [update_of_ne hw] at hm

/-- A mapping of the kernel in a user page table. -/
theorem Image.mapKernel {Q : Post Bool} (hI : Image L id G₀ h₀ pt 0 G h) (hu : perm.u = false)
    (hfl : perm ≠ {}) (hv : v = tfVpn ∨ v = tpVpn) (hva : va = v * pgSize)
    (hpa : (G.leaf id v).v = false)
    (hfail : ∀ G' h' b', Image L id G₀ h₀ pt 0 G' h' → G'.leaf id = G.leaf id → Q false h' b')
    (hok : ∀ G' h' b', Image L id G₀ h₀ pt 0 G' h' →
      G'.leaf id = update (G.leaf id) v (kernPte perm pa 0) → Q true h' b') :
    Spec L E Q (mappages pt va pgSize pa perm) h b := by
  have h1 := tfVpn_eq
  have h2 := tpVpn_eq
  have hdiv : va / pgSize = v := by rw [hva, Nat.mul_div_cancel v (by decide)]
  have hone : pgSize / pgSize = 1 := by decide
  refine mappages_kernel hu hI.holds hI.root (hva ▸ Nat.mul_mod_left v pgSize) (by decide)
    (by decide)
    ?_ ?_ ?_ ?_
  · rw [hdiv, hone, maxVpn_eq]
    omega
  · intro w hw1 hw2
    rw [hdiv] at hw1 hw2
    obtain rfl : w = v := by omega
    exact hpa
  · intro G' h' b' k hk hb hl
    obtain rfl : k = 0 := by omega
    rw [setRange_zero] at hl
    exact hfail G' h' b' (hI.rebuild hb hl) hl
  · intro G' h' b' hb hl
    rw [hdiv, hone, setRange_one] at hl
    have hun : Unmappable false (kernPte perm pa 0) := fun _ => ⟨hu, hfl⟩
    refine hok G' h' b' (hI.setLeaf hb hl (fun q => ?_) ?_) hl
    · show (true && perm.u && _) = false
      rw [hu]
      rfl
    · rw [hl]
      refine ⟨Nat.zero_le _, fun _ hv => absurd hv (Nat.not_lt_zero _), ?_, ?_, ?_⟩
      · intro w hw hw1 hw2
        rw [update_of_ne (by omega)]
        exact hI.leaves.above w hw hw1 hw2
      · by_cases hvt : tfVpn = v
        · rw [hvt, update_self]
          exact hun
        · rw [update_of_ne hvt]
          exact hI.leaves.trapframe
      · by_cases hvt : tpVpn = v
        · rw [hvt, update_self]
          exact hun
        · rw [update_of_ne hvt]
          exact hI.leaves.trampoline

theorem procPagetable_spec {Q : Post (Option ℕ)} (hH : Holds L G h)
    (hnew : G.node id .root = none) (hfail : ∀ b', Q none h b')
    (hok : ∀ pt G' h' b', Image L id G h pt 0 G' h' → Q (some pt) h' b') :
    Spec L E Q (procPagetable L tf) h b := by
  have h1 := tfVpn_eq
  have h2 := tpVpn_eq
  refine wp_seq (uvmcreate_spec (fun _ => hfail b) ?_)
  intro pt hp hfree
  have hI0 := Image.create hH hnew hp hfree
  have hleaf0 : (G.addRoot id pt).leaf id = fun _ => .zero := hI0.new_leaf
  refine wp_seq (hI0.mapKernel rfl (by decide) (.inr rfl) rfl (by rw [hleaf0]; rfl) ?_ ?_)
  · intro G1 h1 b1 hI1 hl1
    rw [if_neg Bool.false_ne_true]
    unfold uvmfree
    rw [if_neg (Nat.lt_irrefl 0)]
    refine wp_seq (hI1.freewalk ?_ hfail)
    intro v
    rw [hl1, hleaf0]
    rfl
  intro G1 h1 b1 hI1 hl1
  rw [hleaf0] at hl1
  rw [if_pos rfl]
  refine wp_seq (hI1.mapKernel rfl (by decide) (.inl rfl) rfl ?_ ?_ ?_)
  · rw [hl1, update_of_ne (by decide)]
    rfl
  · intro G2 h2 b2 hI2 hl2
    rw [if_neg Bool.false_ne_true]
    refine wp_seq (uvmunmap_vpn (v := tpVpn) hI2.holds hI2.root (by decide) (by decide) ?_ ?_)
    · intro w hw1 hw2
      obtain rfl : w = tpVpn := by omega
      exact hI2.leaves.trampoline
    intro G3 h3 b3 hun
    have hleaf3 : ∀ v, (G3.leaf id v).v = false := by
      intro v
      rw [hun.leaf, hl2, hl1]
      by_cases hv : v = tpVpn
      · rw [hv, setRange_in (Nat.le_refl _) (Nat.lt_succ_self _)]
        rfl
      · rw [setRange_out (by omega), update_of_ne hv]
        rfl
    have hI3 : Image L id G h pt 0 G3 h3 := by
      refine hI2.unmap hun ⟨Nat.zero_le _, fun _ hv => absurd hv (Nat.not_lt_zero _), ?_, ?_, ?_⟩
      · exact fun v _ _ _ => hleaf3 v
      · exact fun hv => absurd hv (by rw [hleaf3]; exact Bool.false_ne_true)
      · exact fun hv => absurd hv (by rw [hleaf3]; exact Bool.false_ne_true)
    unfold uvmfree
    rw [if_neg (Nat.lt_irrefl 0)]
    exact wp_seq (hI3.freewalk hleaf3 hfail)
  · intro G2 h2 b2 hI2 _
    rw [if_pos rfl]
    exact hok pt G2 h2 b2 hI2

/-! ## `uvmalloc` -/

theorem card_managed (L : Layout) : L.managed.card ≤ 32768 := by
  have h1 := L.text
  have h2 := L.data
  have h3 : physTop / pgSize = 557056 := by decide
  have h4 : kernBase / pgSize = 524288 := by decide
  have h5 := L.ram
  unfold Layout.managed
  rw [Nat.card_Ico]
  omega

/-- There are no more pages with one reference than there are pages. -/
theorem Holds.span_le (hH : Holds L G h) (id : Tid)
    (hown : ∀ v, m ≤ v → v < n → ∃ q, (G.leaf id v).maps q = true ∧ G.refs q = 1) :
    n ≤ m + 32768 := by
  have hmaps : ∀ v ∈ Finset.Ico m n, (G.leaf id v).maps (G.leaf id v).ppn = true ∧
      G.refs (G.leaf id v).ppn = 1 := by
    intro v hv
    obtain ⟨q, hm, hone⟩ := hown v (Finset.mem_Ico.mp hv).1 (Finset.mem_Ico.mp hv).2
    obtain rfl := (maps_iff.mp hm).2.2
    exact ⟨hm, hone⟩
  have hcard : (Finset.Ico m n).card ≤ L.managed.card := by
    refine Finset.card_le_card_of_injOn (fun v => (G.leaf id v).ppn) ?_ ?_
    · intro v hv
      exact hH.managed_of_leaf (hmaps v hv).1
    · intro v hv w hw hvw
      have hw' := (hmaps w hw).1
      have hvw : (G.leaf id v).ppn = (G.leaf id w).ppn := hvw
      rw [← hvw] at hw'
      exact (hH.unique (hmaps v hv).1 hw' (hmaps v hv).2).2.symm
  have := card_managed L
  rw [Nat.card_Ico] at hcard
  omega

/-- The pages of table `id` from `m` to `n` are fresh; the other entries are as before. -/
structure Extended (L : Layout) (id : Tid) (xperm : Flags) (m n : ℕ) (G : Forest) (h : PageHeap)
    (G' : Forest) (h' : PageHeap) : Prop where
  holds : Holds L G' h'
  frame : Frame {id} G h G' h'
  grows : Grows G h G' h'
  page : G'.page h' id = G.page h id
  out : ∀ v, v < m ∨ n ≤ v → G'.leaf id v = G.leaf id v
  fresh : ∀ v, m ≤ v → v < n →
    ∃ q, G'.leaf id v = { xperm with r := true, u := true, v := true, ppn := q } ∧ h q = none ∧
      ∃ d, h' q = some (1, d)

theorem UserLeaves.clear {f : ℕ → Pte} (hl : UserLeaves f n) (hmn : m ≤ n) :
    UserLeaves (setRange f m (n - m) fun _ => .zero) m := by
  have h1 := tfVpn_eq
  have h2 := tpVpn_eq
  have h3 := hl.bound
  refine ⟨by omega, ?_, ?_, ?_, ?_⟩
  · intro v hv
    rw [setRange_out (by omega)]
    exact hl.user v (by omega)
  · intro v hv hv1 hv2
    by_cases hvn : v < n
    · rw [setRange_in hv (by omega)]
      rfl
    · rw [setRange_out (by omega)]
      exact hl.above v (by omega) hv1 hv2
  · rw [setRange_out (by omega)]
    exact hl.trapframe
  · rw [setRange_out (by omega)]
    exact hl.trampoline

/-- What user mode can see is below page `n`. -/
theorem UserLeaves.lt_of_maps {f : ℕ → Pte} (hl : UserLeaves f n) (hm : (f v).maps q = true) :
    v < n := by
  obtain ⟨hv, hu, _⟩ := maps_iff.mp hm
  by_contra hge
  by_cases h1 : v = tfVpn
  · have := (hl.trapframe (h1 ▸ hv)).1
    rw [← h1, hu] at this
    cases this
  by_cases h2 : v = tpVpn
  · have := (hl.trampoline (h2 ▸ hv)).1
    rw [← h2, hu] at this
    cases this
  rw [hl.above v (Nat.le_of_not_lt hge) h1 h2] at hv
  cases hv

/-- Table `id` has what it had below page `m`, and nothing of user memory has changed. -/
structure Undone (L : Layout) (id : Tid) (m : ℕ) (G : Forest) (h : PageHeap) (G' : Forest)
    (h' : PageHeap) : Prop extends Built L id G h G' h' where
  below : ∀ v, v < m → G'.leaf id v = G.leaf id v
  leaves : UserLeaves (G'.leaf id) m

namespace Extended

theorem refl (hH : Holds L G h) (id : Tid) (xperm : Flags) (m : ℕ) :
    Extended L id xperm m m G h G h :=
  ⟨hH, .refl _ G h, .refl G h, rfl, fun _ _ => rfl, fun _ h1 h2 => absurd h2 (Nat.not_lt.mpr h1)⟩

section

variable (he : Extended L id xperm m n G h G' h')

include he

theorem maps_fresh (h1 : m ≤ v) (h2 : v < n) : ∃ q, (G'.leaf id v).maps q = true ∧
    h q = none ∧ ∃ d, h' q = some (1, d) := by
  obtain ⟨q, hl, hq⟩ := he.fresh v h1 h2
  refine ⟨q, ?_, hq⟩
  rw [hl]
  exact maps_iff.mpr ⟨rfl, rfl, rfl⟩

theorem span_le : n ≤ m + 32768 := by
  refine he.holds.span_le id fun v h1 h2 => ?_
  obtain ⟨q, hm, _, d, hd⟩ := he.maps_fresh h1 h2
  exact ⟨q, hm, he.holds.refs_one hm hd⟩

theorem leaves (hl : UserLeaves (G.leaf id) m) (hmn : m ≤ n) (hn : n ≤ tfVpn) :
    UserLeaves (G'.leaf id) n := by
  have h1 := tfVpn_eq
  have h2 := tpVpn_eq
  refine ⟨hn, ?_, ?_, ?_, ?_⟩
  · intro v hv
    by_cases hvm : v < m
    · rw [he.out v (.inl hvm)]
      exact hl.user v hvm
    · obtain ⟨q, hq, _⟩ := he.fresh v (by omega) hv
      rw [hq]
      exact .of_user rfl
  · intro v hv h3 h4
    rw [he.out v (.inr hv)]
    exact hl.above v (by omega) h3 h4
  · rw [he.out _ (.inr hn)]
    exact hl.trapframe
  · rw [he.out _ (.inr (by omega))]
    exact hl.trampoline

theorem idle (hi : Idle L id G' h' G'' h'') : Extended L id xperm m n G h G'' h'' := by
  refine ⟨hi.holds, he.frame.trans hi.frame, he.grows.trans hi.grows, ?_, ?_, ?_⟩
  · rw [hi.page, he.page]
  · intro v hv
    rw [hi.leaf, he.out v hv]
  · intro v h1 h2
    obtain ⟨q, hl, hq, d, hd⟩ := he.fresh v h1 h2
    obtain ⟨q', hm, hq', d', hd'⟩ := he.maps_fresh h1 h2
    have hN : ¬ G'.Node q := by
      obtain rfl : q = q' := by
        rw [hl] at hm
        exact (maps_iff.mp hm).2.2
      exact fun hN => (he.holds.of_leaf hm).1 (.inl hN)
    refine ⟨q, by rw [hi.leaf, hl], hq, d, ?_⟩
    rw [hi.grows.cell q (by simp [hd]) hN, hd]

/-- One more page. -/
theorem snoc (hmn : m ≤ n)
    (hf : Filled L id n { xperm with r := true, u := true } G' h' b G'' h'' b') :
    Extended L id xperm m (n + 1) G h G'' h'' := by
  obtain ⟨q, hl, hnone, hown⟩ := hf.leaf
  have hother : ∀ v, v ≠ n → G''.leaf id v = G'.leaf id v := fun v hv => by
    rw [hl, update_of_ne hv]
  refine ⟨hf.holds, he.frame.trans hf.frame, he.grows.trans hf.grows, hf.page.trans he.page, ?_, ?_⟩
  · intro v hv
    rw [hother v (by omega), he.out v (by omega)]
  · intro v h1 h2
    by_cases hvn : v = n
    · refine ⟨q, by rw [hvn, hl, update_self], ?_, hown⟩
      by_contra hq
      by_cases hN : G.Node q
      · exact he.holds.not_kern_of_none hnone (.inl (he.grows.nodes q hN))
      · exact hq ((he.grows.cell q hq hN).symm.trans hnone)
    · obtain ⟨r, hr, hr0, d, hd⟩ := he.fresh v h1 (by omega)
      refine ⟨r, by rw [hother v hvn, hr], hr0, d, ?_⟩
      have hm : (G'.leaf id v).maps r = true := by
        rw [hr]
        exact maps_iff.mpr ⟨rfl, rfl, rfl⟩
      rw [hf.grows.cell r (by simp [hd]) fun hN => (he.holds.of_leaf hm).1 (.inl hN), hd]

theorem undone (hl : UserLeaves (G.leaf id) m) (hmn : m ≤ n) (hn : n ≤ tfVpn)
    (hu : Unmapped L id m (n - m) G' h' G'' h'') : Undone L id m G h G'' h'' := by
  refine ⟨⟨hu.holds, he.frame.trans hu.frame, ⟨?_, ?_⟩, ?_⟩, ?_, ?_⟩
  · intro p hp hN
    have hc := he.grows.cell p hp hN
    have hN' : ¬ G'.Node p := fun hN' => (he.grows.fresh p hN').elim hN hp
    rw [hu.cell p (by rw [hc]; exact hp) hN' ?_, hc]
    intro w h1 h2
    obtain ⟨q, hm, hq, _⟩ := he.maps_fresh h1 (by omega)
    refine Bool.eq_false_iff.mpr fun hm' => hp ?_
    rw [← maps_inj hm' hm]
    exact hq
  · rintro p ⟨id', π, hp⟩
    rw [hu.node] at hp
    exact he.grows.fresh p ⟨id', π, hp⟩
  · funext w
    rw [hu.page w, he.page]
    split_ifs with hw
    · refine (page_unmapped fun q => Bool.eq_false_iff.mpr fun hm => ?_).symm
      have := hl.lt_of_maps hm
      omega
    · rfl
  · intro v hv
    rw [hu.leaf, setRange_out (by omega), he.out v (.inl hv)]
  · rw [hu.leaf]
    exact (he.leaves hl hmn hn).clear hmn

/-- `uvmalloc`'s way back. -/
theorem dealloc {Q : Post Bool} (hroot : G.node id .root = some pt)
    (hl : UserLeaves (G.leaf id) m) (hmn : m ≤ n) (hn : n ≤ tfVpn)
    (hQ : ∀ G'' h'' b'', Undone L id m G h G'' h'' → Q false h'' b'') :
    Spec L E Q (do let _ ← uvmdealloc L pt (n * pgSize) (m * pgSize); .ret false) h' b := by
  have h1 := tfVpn_eq
  refine wp_seq (uvmdealloc_spec he.holds ((he.frame.root id).trans hroot) ?_ ?_ ?_)
  · unfold maxVa pgSize
    omega
  · intro w _ hw
    rw [pageCount_mul] at hw
    exact (he.leaves hl hmn hn).user w hw
  · intro G'' h'' b'' hu _
    rw [pageCount_mul, pageCount_mul] at hu
    exact hQ G'' h'' b'' (he.undone hl hmn hn hu)

end

end Extended

/-- The loop of `uvmalloc` that has reached page `n`. -/
theorem allocLoop_spec {Q : Post Bool} {k : ℕ} (hroot : G.node id .root = some pt)
    (hl : UserLeaves (G.leaf id) m) (hmn : m ≤ n)
    (hbound : m + 32768 < tfVpn ∨ n + k ≤ tfVpn) (he : Extended L id xperm m n G h G' h')
    (hok : ∀ G' h' b', Extended L id xperm m (n + k) G h G' h' → Q true h' b')
    (hfail : ∀ G' h' b', Undone L id m G h G' h' → Q false h' b') :
    Spec L E Q (allocLoop L pt (m * pgSize) xperm k (n * pgSize)) h' b := by
  induction k generalizing n G' h' b with
  | zero => exact hok G' h' b he
  | succ k ih =>
    have h1 := tfVpn_eq
    have h2 := tpVpn_eq
    have hle := he.span_le
    have hdiv : n * pgSize / pgSize = n := Nat.mul_div_cancel n (by decide)
    have hroot' := (he.frame.root id).trans hroot
    refine wp_seq (kalloc_spec (fun _ => he.dealloc hroot hl hmn (by omega) hfail) ?_)
    intro mem hmem hfree hserve
    refine fill_spec he.holds hroot' (Nat.mul_mod_left n pgSize) rfl hmem hfree hserve ?_ ?_ ?_ ?_
    · unfold maxVa pgSize
      omega
    · rw [hdiv, he.out n (.inr (Nat.le_refl n))]
      exact hl.above n hmn (by omega) (by omega)
    · intro G'' h'' b'' hf _
      rw [hdiv] at hf
      rw [show n * pgSize + pgSize = (n + 1) * pgSize from (Nat.succ_mul n pgSize).symm]
      refine ih (by omega) (by omega) (he.snoc hmn hf) ?_
      rw [show n + 1 + k = n + (k + 1) by omega]
      exact hok
    · intro G'' h'' b'' hi _
      exact (he.idle hi).dealloc hroot hl hmn (by omega) hfail

/-- **`uvmalloc`.** -/
theorem uvmalloc_spec {Q : Post ℕ} {newsz : ℕ} (hH : Holds L G h)
    (hroot : G.node id .root = some pt) (hl : UserLeaves (G.leaf id) (pageCount sz))
    (hbound : pageCount sz + 32768 < tfVpn ∨ pageCount newsz ≤ tfVpn)
    (hkeep : newsz < sz → Q sz h b)
    (hok : sz ≤ newsz → ∀ G' h' b', UserLeaves (G'.leaf id) (pageCount newsz) →
      Extended L id xperm (pageCount sz) (pageCount newsz) G h G' h' → Q newsz h' b')
    (hfail : ∀ G' h' b', Undone L id (pageCount sz) G h G' h' → Q 0 h' b') :
    Spec L E Q (uvmalloc L pt sz newsz xperm) h b := by
  unfold uvmalloc
  split
  · rename_i hlt
    exact hkeep hlt
  rename_i hge
  have hge : sz ≤ newsz := Nat.le_of_not_lt hge
  have hmn := pageCount_mono hge
  have hk : pageCount sz + (newsz + pgSize - 1 - pageCount sz * pgSize) / pgSize =
      pageCount newsz := by
    unfold pageCount pgRoundUp pgSize
    omega
  rw [pgRoundUp_eq]
  refine wp_seq (allocLoop_spec hroot hl (Nat.le_refl _) (by rw [hk]; exact hbound)
    (.refl hH id xperm _) ?_ ?_)
  · intro G' h' b' he
    rw [hk] at he
    rw [if_pos rfl]
    have hle := he.span_le
    exact hok hge G' h' b' (he.leaves hl hmn (by omega)) he
  · intro G' h' b' hu
    rw [if_neg Bool.false_ne_true]
    exact hfail G' h' b' hu

/-! ## The program headers -/

/-- All pages from `m` to `n` are mapped for user mode. -/
def Mapped (f : ℕ → Pte) (m n : ℕ) : Prop := ∀ v, m ≤ v → v < n → (f v).v = true ∧ (f v).u = true

namespace Image

variable (hI : Image L id G₀ h₀ pt n G h)

include hI

/-- There are no more of them than there are pages. -/
theorem mapped_le (hmap : Mapped (G.leaf id) m n) : n ≤ m + 32768 := by
  refine hI.holds.span_le id fun v h1 h2 => ?_
  obtain ⟨hv, hu⟩ := hmap v h1 h2
  have hm : (G.leaf id v).maps (G.leaf id v).ppn = true := maps_iff.mpr ⟨hv, hu, rfl⟩
  obtain ⟨_, d, hd⟩ := hI.mine v _ hm
  exact ⟨_, hm, hI.holds.refs_one hm hd⟩

theorem extend (he : Extended L id xperm n m G h G' h') (hl : UserLeaves (G'.leaf id) m) :
    Image L id G₀ h₀ pt m G' h' := by
  refine hI.step he.holds he.frame he.grows.toKeeps (fun v q hm => ?_) hl
  by_cases hv : v < n ∨ m ≤ v
  · rw [he.out v hv] at hm
    exact .inl hm
  · obtain ⟨r, hr, hown⟩ := he.maps_fresh (v := v) (by omega) (by omega)
    rw [maps_inj hr hm]
    exact .inr hown

theorem undo (hu : Undone L id n G h G' h') : Image L id G₀ h₀ pt n G' h' := by
  refine hI.step hu.holds hu.frame hu.keeps (fun v q hm => .inl ?_) hu.leaves
  rwa [hu.below v (hu.leaves.lt_of_maps hm)] at hm

/-- The bytes of a page of the new table change. -/
theorem write (hm : (G.leaf id v).maps q = true) (f : ℕ → UInt8) :
    Image L id G₀ h₀ pt n G (h.set q (some (1, .bytes f))) := by
  obtain ⟨h0, d, hd⟩ := hI.mine v q hm
  refine ⟨hI.base, hI.new, hI.holds.writePage hm (hI.holds.refs_one hm hd) f, hI.root, hI.node,
    hI.leaf,
    hI.priv, ⟨?_, hI.keeps.fresh⟩, ?_, hI.leaves⟩
  · intro p hp hN
    rw [set_ne, hI.keeps.cell p hp hN]
    rintro rfl
    exact hp h0
  · intro w p hmp
    obtain ⟨h0', d', hd'⟩ := hI.mine w p hmp
    refine ⟨h0', ?_⟩
    by_cases hpq : p = q
    · rw [hpq, set_same]
      exact ⟨_, rfl⟩
    · rw [set_ne _ _ hpq]
      exact ⟨d', hd'⟩

end Image

theorem loadsegLoop_spec {Q : Post Bool} {ip : Inode} {offset fsz k i : ℕ}
    (hI : Image L id G₀ h₀ pt n G h) (hmap : Mapped (G.leaf id) 0 n)
    (hin : ∀ j, j < k → (va + i + j * pgSize) / pgSize < n)
    (hQ : ∀ r h' b', Image L id G₀ h₀ pt n G h' → Q r h' b') :
    Spec L E Q (loadsegLoop pt va ip offset fsz k i) h b := by
  induction k generalizing i h b with
  | zero => exact hQ true h b hI
  | succ k ih =>
    refine wp_seq (walkaddr_spec hI.holds hI.root ?_ ?_)
    · intro hnone
      have hlt := hin 0 (Nat.succ_pos k)
      rw [Nat.zero_mul, Nat.add_zero] at hlt
      obtain ⟨hv, hu⟩ := hmap _ (Nat.zero_le _) hlt
      have := hnone (G.leaf id ((va + i) / pgSize)).ppn
      rw [maps_iff.mpr ⟨hv, hu, rfl⟩] at this
      cases this
    · intro q _ hm
      obtain ⟨_, d, hd⟩ := hI.mine _ q hm
      have hcell := hI.holds.cell_leaf hm
      rw [hI.holds.refs_one hm hd] at hcell
      refine wp_seq (memmove_spec hcell ?_)
      have hI' := hI.write hm (patch (G.page h id ((va + i) / pgSize)) 0
        (ip.read ((offset + i) % 2 ^ 32) (min pgSize (fsz - i))))
      split
      · refine ih hI' fun j hj => ?_
        have := hin (j + 1) (by omega)
        rwa [show va + (i + pgSize) + j * pgSize = va + i + (j + 1) * pgSize by
          rw [Nat.succ_mul]; omega]
      · exact hQ false _ b hI'

theorem loadSegments_spec {Q : Post (ℕ × Bool)} {ip : Inode} {k off : ℕ}
    (hI : Image L id G₀ h₀ pt (pageCount sz) G h) (hmap : Mapped (G.leaf id) 0 (pageCount sz))
    (hQ : ∀ G' h' b' sz' r, Image L id G₀ h₀ pt (pageCount sz') G' h' →
      Mapped (G'.leaf id) 0 (pageCount sz') → Q (sz', r) h' b') :
    Spec L E Q (loadSegments L pt ip k off sz) h b := by
  induction k generalizing off sz G h b with
  | zero => exact hQ G h b sz true hI hmap
  | succ k ih =>
    unfold loadSegments
    dsimp only
    split
    · exact hQ G h b sz false hI hmap
    split
    · exact ih hI hmap
    split
    · exact hQ G h b sz false hI hmap
    rename_i hmem
    split
    · exact hQ G h b sz false hI hmap
    split
    · exact hQ G h b sz false hI hmap
    rename_i hal
    have hle := hI.mapped_le hmap
    have htf := tfVpn_eq
    -- the segment is inside the pages that are mapped
    have hload : ∀ {G' h' b' sz'}, Image L id G₀ h₀ pt (pageCount sz') G' h' →
        Mapped (G'.leaf id) 0 (pageCount sz') →
        field (ip.read off 56) 16 8 + field (ip.read off 56) 40 8 ≤ sz' →
        Spec L E Q (do
          if ← loadseg pt (field (ip.read off 56) 16 8) ip (field (ip.read off 56) 8 8 % 2 ^ 32)
            (field (ip.read off 56) 32 8 % 2 ^ 32)
          then loadSegments L pt ip k ((off + 56) % 2 ^ 32) sz'
          else .ret (sz', false)) h' b' := by
      intro G' h' b' sz' hI' hmap' hin
      refine wp_seq (loadsegLoop_spec hI' hmap' ?_ ?_)
      · intro j hj
        have hal' : field (ip.read off 56) 16 8 % pgSize = 0 := by simpa using hal
        unfold pageCount pgRoundUp
        unfold pgRoundUp at hj
        unfold pgSize at hj hal' ⊢
        omega
      · intro r h'' b'' hI''
        cases r with
        | true => exact ih hI'' hmap'
        | false => exact hQ G' h'' b'' sz' false hI'' hmap'
    refine wp_seq (uvmalloc_spec hI.holds hI.root hI.leaves (.inl (by omega)) ?_ ?_ ?_)
    · intro hlt
      rw [if_neg (by omega)]
      exact hload hI hmap (by omega)
    · intro hge G' h' b' hl' he
      have hI' := hI.extend he hl'
      split
      · rename_i hzero
        have hsz : sz = 0 := by omega
        subst hsz
        rw [hzero] at hI'
        exact hQ G' h' b' 0 false hI' fun v _ hv => absurd hv (Nat.not_lt_zero _)
      · refine hload hI' ?_ (Nat.le_refl _)
        intro v _ hv
        by_cases hvs : v < pageCount sz
        · rw [he.out v (.inl hvs)]
          exact hmap v (Nat.zero_le _) hvs
        · obtain ⟨q, hq, _⟩ := he.fresh v (by omega) hv
          rw [hq]
          exact ⟨rfl, rfl⟩
    · intro G' h' b' hu
      rw [if_pos rfl]
      refine hQ G' h' b' sz false (hI.undo hu) fun v _ hv => ?_
      rw [hu.below v hv]
      exact hmap v (Nat.zero_le _) hv

end Xv6.Vm
