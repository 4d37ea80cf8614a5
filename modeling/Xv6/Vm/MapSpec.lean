/-
  `mappages`: kernel mappings, and a fresh page mapped for user mode.
-/
import Xv6.Vm.Contents

namespace Xv6.Vm

open Lib Function Finset Forest Heap

variable {L : Layout} {E : Panic → Prop} {G G' G'' : Forest} {h h' h'' : PageHeap} {id : Tid}
  {p q t v va pa pt n b b' b'' : ℕ} {e : Pte} {perm : Flags}

theorem vpn_lt (hva : va < maxVa) : va / pgSize < maxVpn := by
  unfold maxVpn
  have h1 : maxVa = 67108864 * 4096 := by decide
  have h2 : pgSize = 4096 := rfl
  rw [h2]
  omega

theorem mappages_one {pt va pa : ℕ} {perm : Flags} (hva : va % pgSize = 0) :
    mappages pt va pgSize pa perm = mapLoop pt perm 1 va pa := by
  unfold mappages
  rw [if_neg (by simp [hva]), if_neg (by simp), if_neg (by decide),
    Nat.div_self (by decide : 0 < pgSize)]

/-- One round of `mappages`. The entry is left to the caller's argument. -/
theorem mapLoop_succ {Q : Post Bool} (hH : Holds L G h) (hroot : G.node id .root = some pt)
    (hva : va < maxVa) (hv : (G.leaf id (va / pgSize)).v = false)
    (hfail : ∀ G' h' b', Grown L id (va / pgSize) G h b G' h' b' → b' = 0 →
      G'.node id (botOf (va / pgSize)) = none → Q false h' b')
    (hset : ∀ G' h' b' t, Grown L id (va / pgSize) G h b G' h' b' →
      G'.node id (botOf (va / pgSize)) = some t →
      Spec L E Q (mapLoop pt perm n (va + pgSize) (pa + 1))
        (Holds.setEntry h' t (G'.entries id (botOf (va / pgSize))) (ix0 (va / pgSize))
          { perm with v := true, ppn := pa }) b') : Spec L E Q (mapLoop pt perm (n + 1) va pa)
            h b := by
  refine wp_seq (walk_alloc hH hroot hva hfail ?_)
  intro G' h' b' t hg ht
  have htab := hg.holds.table id _ t ht
  refine wp_seq (readPte_spec htab ?_)
  rw [Shape.entry (vpn_lt hva), hg.leaf, if_neg (by simp [hv])]
  exact wp_seq (setPte_spec htab (hset G' h' b' t hg ht))

/-! ## Kernel mappings -/

/-- `f` with the entries `g 0`, `g 1`, .. for `n` pages from `v` on. -/
def setRange (f : ℕ → Pte) (v n : ℕ) (g : ℕ → Pte) : ℕ → Pte :=
  fun w => if v ≤ w ∧ w < v + n then g (w - v) else f w

theorem setRange_zero (f g : ℕ → Pte) (v : ℕ) : setRange f v 0 g = f := by
  funext w
  unfold setRange
  rw [if_neg (by omega)]

theorem setRange_succ (f g : ℕ → Pte) (v n : ℕ) :
    setRange (update f v (g 0)) (v + 1) n (fun i => g (i + 1)) = setRange f v (n + 1) g := by
  funext w
  unfold setRange
  rcases Nat.lt_trichotomy w v with hw | rfl | hw
  · rw [if_neg (by omega), if_neg (by omega), update_of_ne (by omega)]
  · rw [if_neg (by omega), if_pos (by omega), update_self, Nat.sub_self]
  · by_cases hn : w < v + (n + 1)
    · rw [if_pos (by omega), if_pos (by omega)]
      show g (w - (v + 1) + 1) = g (w - v)
      rw [show w - (v + 1) + 1 = w - v by omega]
    · rw [if_neg (by omega), if_neg (by omega), update_of_ne (by omega)]

/-- Pages that are held and are no nodes keep their cells; a new node was nobody's page. -/
structure Keeps (G : Forest) (h : PageHeap) (G' : Forest) (h' : PageHeap) : Prop where
  cell : ∀ p, h p ≠ none → ¬ G.Node p → h' p = h p
  fresh : ∀ p, G'.Node p → G.Node p ∨ h p = none

theorem Keeps.refl (G : Forest) (h : PageHeap) : Keeps G h G h :=
  ⟨fun _ _ _ => rfl, fun _ hp => .inl hp⟩

theorem Keeps.trans (h1 : Keeps G h G' h') (h2 : Keeps G' h' G'' h'') : Keeps G h G'' h'' where
  cell p hp hN := by
    have hc := h1.cell p hp hN
    rw [h2.cell p (by rw [hc]; exact hp) fun hN' => (h1.fresh p hN').elim hN hp, hc]
  fresh p hp := by
    by_contra hno
    rw [not_or] at hno
    rcases h2.fresh p hp with hN | hn
    · exact (h1.fresh p hN).elim hno.1 hno.2
    · exact hno.2 ((h1.cell p hno.2 hno.1).symm.trans hn)

theorem Grown.keeps (hg : Grown L id v G h b G' h' b') : Keeps G h G' h' :=
  ⟨fun _ hp hN => hg.cell_of_held hp hN, hg.fresh⟩

/-- An entry of a node is set. -/
theorem Keeps.setLeaf (ht : G.Node t) (id : Tid) (v : ℕ) (e : Pte) (tb : Table) (i : Fin 512)
    (e' : Pte) :
    Keeps G h (G.setLeaf id v e) (Holds.setEntry h t tb i e') where
  cell _ _ hN := Holds.setEntry_ne _ _ _ _ fun hpt => hN (hpt ▸ ht)
  fresh _ hp := .inl hp

/-- As `Keeps`; and the nodes stay, and a page that is held anew has one owner. -/
structure Grows (G : Forest) (h : PageHeap) (G' : Forest) (h' : PageHeap) : Prop extends
    Keeps G h G' h' where
  nodes : ∀ p, G.Node p → G'.Node p
  new : ∀ p, h p = none → h' p = none ∨ G'.Node p ∨ ∃ d, h' p = some (1, d)

theorem Grows.refl (G : Forest) (h : PageHeap) : Grows G h G h :=
  ⟨.refl G h, fun _ hp => hp, fun _ hp => .inl hp⟩

theorem Grows.trans (h1 : Grows G h G' h') (h2 : Grows G' h' G'' h'') : Grows G h G'' h'' where
  toKeeps := h1.toKeeps.trans h2.toKeeps
  nodes p hp := h2.nodes p (h1.nodes p hp)
  new p hp := by
    rcases h1.new p hp with hn | hN | ⟨d, hd⟩
    · exact h2.new p hn
    · exact .inr (.inl (h2.nodes p hN))
    · by_cases hN : G'.Node p
      · exact .inr (.inl (h2.nodes p hN))
      · refine .inr (.inr ⟨d, ?_⟩)
        rw [h2.cell p (by simp [hd]) hN, hd]

theorem Grown.grows (hg : Grown L id v G h b G' h' b') : Grows G h G' h' where
  toKeeps := hg.keeps
  nodes := fun p ⟨id', π, hp⟩ => ⟨id', π, hg.node id' π p hp⟩
  new p hp := by
    by_cases hN : G'.Node p
    · exact .inr (.inl hN)
    · exact .inl ((hg.cell p hN).trans hp)

theorem Grows.setLeaf (ht : G.Node t) (id : Tid) (v : ℕ) (e : Pte) (tb : Table) (i : Fin 512)
    (e' : Pte) :
    Grows G h (G.setLeaf id v e) (Holds.setEntry h t tb i e') where
  toKeeps := .setLeaf ht id v e tb i e'
  nodes _ hp := hp
  new p hp := by
    by_cases hpt : p = t
    · exact .inr (.inl (hpt ▸ ht))
    · exact .inl ((Holds.setEntry_ne _ _ _ _ hpt).trans hp)

/-- Table `id` has grown without a change to user memory. -/
structure Built (L : Layout) (id : Tid) (G : Forest) (h : PageHeap) (G' : Forest) (h' : PageHeap) :
    Prop where
  holds : Holds L G' h'
  frame : Frame {id} G h G' h'
  keeps : Keeps G h G' h'
  page : G'.page h' id = G.page h id

theorem Built.refl (hH : Holds L G h) (id : Tid) : Built L id G h G h :=
  ⟨hH, .refl _ G h, .refl G h, rfl⟩

theorem Built.trans (h1 : Built L id G h G' h') (h2 : Built L id G' h' G'' h'') :
    Built L id G h G'' h'' :=
  ⟨h2.holds, h1.frame.trans h2.frame, h1.keeps.trans h2.keeps, h2.page.trans h1.page⟩

theorem Grown.toBuilt (hg : Grown L id v G h b G' h' b') (hH : Holds L G h) :
    Built L id G h G' h' :=
  ⟨hg.holds, hg.frame hH, hg.keeps, by rw [hg.page hH]⟩

/-- An entry without `PTE_U` where there was none, or the other way round. -/
theorem Built.setLeaf (hH : Holds L G h) (hv : v < maxVpn) (ht : G.node id (botOf v) = some t)
    (hold : ∀ q, (G.leaf id v).maps q = false) (hnew : ∀ q, e.maps q = false) :
    Built L id G h (G.setLeaf id v e) (Holds.setEntry h t (G.entries id (botOf v)) (ix0 v) e) := by
  have hH' := hH.setLeaf (e := e) hv ht (fun q => by rw [hnew q, hold q])
    (fun q hq _ => by rw [hnew q] at hq; cases hq)
  have hcell : ∀ r, r ≠ t → Holds.setEntry h t (G.entries id (botOf v)) (ix0 v) e r = h r :=
    fun r hr => Holds.setEntry_ne _ _ _ _ hr
  obtain ⟨hframe, hpage⟩ := Frame.of_setLeaf hH hH' ht (fun r hr => .inl (by rw [hcell r hr]))
    (fun r hr => hcell r (by
      rintro rfl
      exact hH.apart r ⟨id, _, ht⟩ hr))
  refine ⟨hH', hframe, .setLeaf ⟨id, _, ht⟩ _ _ _ _ _ _, ?_⟩
  funext w
  by_cases hw : w = v
  · subst hw
    rw [page_unmapped hold, page_unmapped]
    rw [setLeaf_same]
    exact hnew
  · exact hpage w hw

theorem setRange_one (f g : ℕ → Pte) (v : ℕ) : setRange f v 1 g = update f v (g 0) := by
  rw [← setRange_succ, setRange_zero]

/-- Entry `i` of a range that is mapped from page `pa` on. -/
def kernPte (perm : Flags) (pa i : ℕ) : Pte := { perm with v := true, ppn := pa + i }

section

variable {Q : Post Bool} (hu : perm.u = false) (hH : Holds L G h)
  (hroot : G.node id .root = some pt) (hva : va % pgSize = 0)

include hu hH hroot hva

/-- The loop of `mappages` for entries without `PTE_U`. -/
theorem mapLoop_kernel (hmax : va / pgSize + n ≤ maxVpn)
    (hfree : ∀ w, va / pgSize ≤ w → w < va / pgSize + n → (G.leaf id w).v = false)
    (hfail : ∀ G' h' b' k, k < n → Built L id G h G' h' →
      G'.leaf id = setRange (G.leaf id) (va / pgSize) k (kernPte perm pa) → Q false h' b')
    (hok : ∀ G' h' b', Built L id G h G' h' →
      G'.leaf id = setRange (G.leaf id) (va / pgSize) n (kernPte perm pa) → Q true h' b') :
    Spec L E Q (mapLoop pt perm n va pa) h b := by
  induction n generalizing va pa G h b with
  | zero => exact hok G h b (.refl hH id) (setRange_zero _ _ _).symm
  | succ n ih =>
    have hlt : va < maxVa := by
      have h1 : maxVpn = 67108864 := by decide
      have h2 : maxVa = 67108864 * 4096 := by decide
      unfold pgSize at hmax
      omega
    have hnext : (va + pgSize) / pgSize = va / pgSize + 1 := Nat.add_div_right va (by decide)
    have hR : (G.leaf id (va / pgSize)).v = false := hfree _ (Nat.le_refl _) (by omega)
    refine mapLoop_succ hH hroot hlt hR (fun G' h' b' hg _ _ => ?_) ?_
    · refine hfail G' h' b' 0 (Nat.succ_pos n) (hg.toBuilt hH) ?_
      rw [hg.leaf, setRange_zero]
    intro G' h' b' t hg ht
    have hold : ∀ q, (G'.leaf id (va / pgSize)).maps q = false := by
      intro q
      unfold Pte.maps
      rw [hg.leaf, hR]
      rfl
    have hnew : ∀ q, Pte.maps { perm with v := true, ppn := pa } q = false := by
      intro q
      show (true && perm.u && _) = false
      rw [hu]
      rfl
    have hset := Built.setLeaf hg.holds (vpn_lt hlt) ht hold hnew
    have hb := (hg.toBuilt hH).trans hset
    have hleaf : (G'.setLeaf id (va / pgSize) { perm with v := true, ppn := pa }).leaf id =
        update (G.leaf id) (va / pgSize) (kernPte perm pa 0) := by
      rw [setLeaf_leaf, hg.leaf]
      rfl
    have hshift : (fun i => kernPte perm pa (i + 1)) = kernPte perm (pa + 1) := by
      funext i
      unfold kernPte
      rw [show pa + (i + 1) = pa + 1 + i by omega]
    refine ih hset.holds ((hb.frame.root id).trans hroot) ?_ ?_ ?_ ?_ ?_
    · rw [Nat.add_mod_right]
      exact hva
    · rw [hnext]
      omega
    · intro w h1 h2
      rw [hnext] at h1 h2
      rw [hleaf, update_of_ne (by omega)]
      exact hfree w (by omega) (by omega)
    · intro G'' h'' b'' k hk hb' hl
      refine hfail G'' h'' b'' (k + 1) (by omega) (hb.trans hb') ?_
      rw [hl, hleaf, hnext, ← hshift, setRange_succ]
    · intro G'' h'' b'' hb' hl
      refine hok G'' h'' b'' (hb.trans hb') ?_
      rw [hl, hleaf, hnext, ← hshift, setRange_succ]

theorem mappages_kernel {size : ℕ} (hsize : size % pgSize = 0) (hpos : size ≠ 0)
    (hmax : va / pgSize + size / pgSize ≤ maxVpn)
    (hfree : ∀ w, va / pgSize ≤ w → w < va / pgSize + size / pgSize → (G.leaf id w).v = false)
    (hfail : ∀ G' h' b' k, k < size / pgSize → Built L id G h G' h' →
      G'.leaf id = setRange (G.leaf id) (va / pgSize) k (kernPte perm pa) → Q false h' b')
    (hok : ∀ G' h' b', Built L id G h G' h' →
      G'.leaf id = setRange (G.leaf id) (va / pgSize) (size / pgSize) (kernPte perm pa) →
      Q true h' b') :
    Spec L E Q (mappages pt va size pa perm) h b := by
  unfold mappages
  rw [if_neg (by simp [hva]), if_neg (by simp [hsize]), if_neg hpos]
  exact mapLoop_kernel hu hH hroot hva hmax hfree hfail hok

end

/-! ## A fresh page for user mode -/

theorem kfree_priv {Q : Post Unit} (hH : Holds L G h) (hp : p ∈ G.priv)
    (hQ : ∀ b', b ≤ b' → Q () (h.set p none) b') : Spec L E Q (kfree L p) h b := by
  obtain ⟨d, hd⟩ := hH.own p hp
  refine kfree_spec (hH.managed_of_kern (.inr hp)) hd ?_
  rw [hd]
  exact hQ

theorem page_dropPriv (hH : Holds L G h) (hp : p ∈ G.priv) :
    (G.dropPriv p).page (h.set p .none) = G.page h :=
  page_set (G := G.dropPriv p) fun id v => hH.not_mapped (.inl (.inr hp)) id v

theorem page_addPriv (hH : Holds L G h) (hn : h p = none) {c : Cell PageData} :
    (G.addPriv p).page (h.set p c) = G.page h :=
  page_set (G := G.addPriv p) fun id v => hH.not_mapped (.inr hn) id v

theorem Grows.addPriv (hn : h p = none) (d : PageData) :
    Grows G h (G.addPriv p) (h.set p (some (1, d))) where
  cell q hq _ := by
    refine set_ne h _ ?_
    rintro rfl
    exact hq hn
  fresh _ hq := .inl hq
  nodes _ hq := hq
  new q hq := by
    by_cases hqp : q = p
    · rw [hqp, set_same]
      exact .inr (.inr ⟨d, rfl⟩)
    · exact .inl ((set_ne h _ hqp).trans hq)

/-- A page that was nobody's is given back. -/
theorem Grows.dropPriv (hg : Grows G h G' h') (hn : h p = none) :
    Grows G h (G'.dropPriv p) (h'.set p .none) where
  cell q hq hN := by
    rw [set_ne, hg.cell q hq hN]
    rintro rfl
    exact hq hn
  fresh := hg.fresh
  nodes := hg.nodes
  new q hq := by
    by_cases hqp : q = p
    · rw [hqp, set_same]
      exact .inl rfl
    · rw [set_ne _ _ hqp]
      exact hg.new q hq

/-- Table `id` may have got nodes; nothing that can be seen has changed. -/
structure Idle (L : Layout) (id : Tid) (G : Forest) (h : PageHeap) (G' : Forest) (h' : PageHeap) :
    Prop where
  holds : Holds L G' h'
  frame : Frame {id} G h G' h'
  grows : Grows G h G' h'
  leaf : G'.leaf = G.leaf
  page : G'.page h' = G.page h

/-- Page `v` of table `id` is a fresh page of zeros. -/
structure Filled (L : Layout) (id : Tid) (v : ℕ) (perm : Flags) (G : Forest) (h : PageHeap)
    (b : ℕ) (G' : Forest) (h' : PageHeap) (b' : ℕ) : Prop where
  holds : Holds L G' h'
  frame : Frame {id} G h G' h'
  grows : Grows G h G' h'
  leaf : ∃ mem, G'.leaf id = update (G.leaf id) v { perm with v := true, ppn := mem } ∧
    h mem = none ∧ ∃ d, h' mem = some (1, d)
  page : G'.page h' id = G.page h id
  /-- Between one and three pages have been taken. -/
  spent : b' < b ∧ b ≤ b' + 3

/-- The nodes on the way to page `v`, the root apart. -/
def way (v : ℕ) : Finset Path := {.mid (ix2 v), botOf v}

theorem mem_way {π : Path} : onWay v π → π ∈ way v := by
  rintro (rfl | rfl)
  · exact mem_insert_self _ _
  · exact mem_insert_of_mem (mem_singleton_self _)

theorem built_way_le (v : ℕ) (G : Forest) (id : Tid) : built (way v) G id ≤ 2 :=
  (card_filter_le _ _).trans card_le_two

theorem built_way_lt (hn : G.node id (botOf v) = none) : built (way v) G id ≤ 1 := by
  have hsub : Finset.filter (fun π => (G.node id π).isSome) (way v) ⊆ {.mid (ix2 v)} := by
    intro π hπ
    obtain ⟨h1, h2⟩ := Finset.mem_filter.mp hπ
    rcases Finset.mem_insert.mp h1 with rfl | h1
    · exact mem_singleton_self _
    · rw [Finset.mem_singleton.mp h1, hn] at h2
      cases h2
  exact (card_le_card hsub).trans (Nat.le_of_eq (card_singleton _))

/-- What `uvmalloc` and `vmfault` do with a page from `kalloc`. -/
theorem fill_spec {α : Type} {Q : Post α} {B C : K α} {mem : ℕ} (hH : Holds L G h)
    (hroot : G.node id .root = some pt) (hva : va % pgSize = 0) (hu : perm.u = true)
    (hmem : mem ∈ L.managed) (hfree : h mem = none) (hserve : 0 < b) (hlt : va < maxVa)
    (hv : (G.leaf id (va / pgSize)).v = false)
    (hB : ∀ G' h' b', Filled L id (va / pgSize) perm G h b G' h' b' →
      G'.leaf id (va / pgSize) = { perm with v := true, ppn := mem } → Spec L E Q B h' b')
    (hC : ∀ G' h' b', Idle L id G h G' h' →
      b + built (way (va / pgSize)) G id < 3 → Spec L E Q C h' b') :
    Spec L E Q (do
        memset mem 0
        if ← mappages pt va pgSize mem perm then B
        else do
          kfree L mem
          C) (h.set mem (some (1, .bytes fun _ => 5))) (b - 1) := by
  have hmk := hH.not_kern_of_none hfree
  have hH1 : Holds L (G.addPriv mem) (h.set mem (some (1, .bytes fun _ => 0))) :=
    hH.addPriv hmem hfree
  have hpage1 : (G.addPriv mem).page (h.set mem (some (1, .bytes fun _ => 0))) = G.page h :=
    page_addPriv hH hfree
  have hprivne : ∀ r ∈ G.priv, r ≠ mem := by
    rintro r hr rfl
    exact hmk (.inr hr)
  have hadd : Grows G h (G.addPriv mem) (h.set mem (some (1, .bytes fun _ => 0))) :=
    .addPriv hfree _
  refine wp_seq (write_spec (set_same h mem _) ?_)
  rw [set_set, mappages_one hva]
  refine wp_seq (mapLoop_succ hH1 hroot hlt hv ?_ ?_)
  · -- a node is missing: the page goes back
    intro G' h' b' hg hb hn
    have hmp : mem ∈ G'.priv := by
      rw [hg.priv]
      exact .inl rfl
    rw [if_neg (by simp)]
    refine wp_seq (kfree_priv hg.holds hmp ?_)
    intro b'' _
    refine hC (G'.dropPriv mem) _ b'' ⟨hg.holds.dropPriv hmp, ?_, ?_, hg.leaf, ?_⟩ ?_
    · have hf := hg.frame hH1
      refine ⟨hf.node, hf.leaf, hf.root, ?_, ?_, ?_⟩
      · ext r
        rw [mem_dropPriv, hg.priv, mem_addPriv]
        exact ⟨fun hx => hx.1.resolve_left hx.2, fun hx => ⟨.inr hx, hprivne r hx⟩⟩
      · intro r hr
        rw [set_ne _ _ (hprivne r hr), hf.cell r (.inr hr), set_ne _ _ (hprivne r hr)]
      · intro id' hid
        rw [page_dropPriv hg.holds hmp, hf.page id' hid, hpage1]
    · exact (hadd.trans hg.grows).dropPriv hfree
    · rw [page_dropPriv hg.holds hmp, hg.page hH1, hpage1]
    · have hpaid := hg.paid _ fun _ => mem_way
      have h1 := built_way_lt hn
      show b + built (way (va / pgSize)) (G.addPriv mem) id < 3
      omega
  · intro G' h' b' t hg ht
    have hmp : mem ∈ G'.priv := by
      rw [hg.priv]
      exact .inl rfl
    have hold : ∀ q, (G'.leaf id (va / pgSize)).maps q = false := by
      intro q
      unfold Pte.maps
      rw [hg.leaf, show ((G.addPriv mem).leaf id (va / pgSize)).v = false from hv]
      rfl
    have hmcell : h' mem = some (1, .bytes fun _ => 0) := by
      rw [hg.cell_priv hH1 (.inl rfl), set_same]
    have he : Pte.maps { perm with v := true, ppn := mem } mem = true := maps_iff.mpr ⟨rfl, hu, rfl⟩
    have hH2 := hg.holds.mapPriv (vpn_lt hlt) ht hold he hmp hmcell
    have htN : G'.Node t := ⟨id, _, ht⟩
    have hf := hg.frame hH1
    have hkeep : Grows G h (G'.setLeaf id (va / pgSize) { perm with v := true, ppn := mem })
        (Holds.setEntry h' t (G'.entries id (botOf (va / pgSize))) (ix0 (va / pgSize))
          { perm with v := true, ppn := mem }) :=
      (hadd.trans hg.grows).trans (.setLeaf htN _ _ _ _ _ _)
    refine hB _ _ b' ⟨hH2, ?_, ⟨⟨hkeep.cell, hkeep.fresh⟩, hkeep.nodes, hkeep.new⟩,
      ⟨mem, ?_, hfree, .bytes fun _ => 0, ?_⟩, ?_, ?_⟩ ?_
    · refine ⟨hf.node, ?_, hf.root, ?_, ?_, ?_⟩
      · intro id' hid
        rw [dropPriv_leaf, setLeaf_id hid]
        exact hf.leaf id' hid
      · ext r
        rw [mem_dropPriv, setLeaf_priv, hg.priv, mem_addPriv]
        exact ⟨fun hx => hx.1.resolve_left hx.2, fun hx => ⟨.inr hx, hprivne r hx⟩⟩
      · intro r hr
        have hrt : r ≠ t := by
          rintro rfl
          exact hg.holds.apart r htN (hg.priv ▸ .inr hr)
        rw [Holds.setEntry_ne _ _ _ _ hrt, hf.cell r (.inr hr), set_ne _ _ (hprivne r hr)]
      · intro id' hid
        funext w
        exact (page_setEntry hg.holds htN fun hx => hid hx.1).trans (by rw [hg.page hH1, hpage1])
    · rw [dropPriv_leaf, setLeaf_leaf, hg.leaf]
      rfl
    · refine (Holds.setEntry_ne _ _ _ _ ?_).trans hmcell
      rintro rfl
      exact hg.holds.apart mem htN hmp
    · funext w
      by_cases hw : w = va / pgSize
      · subst hw
        rw [page_unmapped (G := G) (h := h) fun q => by
          unfold Pte.maps
          rw [hv]
          rfl]
        refine page_mapped (p := mem) (n := 1) ?_ ?_
        · rw [dropPriv_leaf, setLeaf_same]
          exact he
        · rw [Holds.setEntry_ne _ _ _ _ (by rintro rfl; exact hg.holds.apart mem htN hmp), hmcell]
      · exact (page_setEntry hg.holds htN fun hx => hw hx.2).trans (by rw [hg.page hH1, hpage1])
    · have hpaid := hg.paid _ fun _ => mem_way
      have h1 := built_way_le (va / pgSize) G' id
      have hle : built (way (va / pgSize)) (G.addPriv mem) id ≤ built (way (va / pgSize))
          G' id := by
        refine card_le_card fun π hπ => ?_
        obtain ⟨hπ1, hπ2⟩ := Finset.mem_filter.mp hπ
        obtain ⟨r, hr⟩ := Option.isSome_iff_exists.mp hπ2
        exact Finset.mem_filter.mpr ⟨hπ1, by rw [hg.node _ _ _ hr]; rfl⟩
      constructor <;> omega
    · rw [dropPriv_leaf, setLeaf_same]

end Xv6.Vm
