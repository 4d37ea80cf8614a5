/-
  The kernel's page tables: `kvmmake`, `proc_kpagetable` and `proc_free_kpagetable`.

  None of their entries is for user mode, so the memory of no process is concerned. A kernel stack
  is a private page that an entry of the process's kernel page table maps.
-/
import Xv6.Vm.ExecSpec

namespace Xv6.Vm

open Lib Function Forest Heap

variable {L : Layout} {E : Panic → Prop} {G G' G'' : Forest} {h h' h'' : PageHeap} {id : Tid}
  {p q t v va pt b b' : ℕ} {f : ℕ → Pte} {I J : Set Tid} {S : Set ℕ}

/-! ## What stays -/

theorem not_mem_pair {a b x : Tid} (ha : x ≠ a) (hb : x ≠ b) : x ∉ ({a, b} : Set Tid) := by
  rintro (hx | hx)
  · exact ha hx
  · exact hb hx

theorem not_mem_triple {a b c x : Tid} (ha : x ≠ a) (hb : x ≠ b) (hc : x ≠ c) :
    x ∉ ({a, b, c} : Set Tid) := by
  rintro (hx | hx)
  · exact ha hx
  · exact not_mem_pair hb hc hx

theorem user_ne {i j : Fin nproc} (h : i ≠ j) : Tid.user i ≠ .user j :=
  fun hx => h (Tid.user.inj hx)

theorem kern_ne {i j : Fin nproc} (h : i ≠ j) : Tid.kern i ≠ .kern j :=
  fun hx => h (Tid.kern.inj hx)

/-- The tables outside `I`, and the memory that user mode sees through them, are as before. -/
structure Rest (I : Set Tid) (G : Forest) (h : PageHeap) (G' : Forest) (h' : PageHeap) : Prop where
  node : ∀ id, id ∉ I → G'.node id = G.node id
  leaf : ∀ id, id ∉ I → G'.leaf id = G.leaf id
  page : ∀ id, id ∉ I → G'.page h' id = G.page h id

namespace Rest

theorem refl (I : Set Tid) (G : Forest) (h : PageHeap) : Rest I G h G h :=
  ⟨fun _ _ => rfl, fun _ _ => rfl, fun _ _ => rfl⟩

theorem trans (h1 : Rest I G h G' h') (h2 : Rest I G' h' G'' h'') : Rest I G h G'' h'' where
  node id hid := (h2.node id hid).trans (h1.node id hid)
  leaf id hid := (h2.leaf id hid).trans (h1.leaf id hid)
  page id hid := (h2.page id hid).trans (h1.page id hid)

theorem mono (hr : Rest I G h G' h') (hIJ : I ⊆ J) : Rest J G h G' h' where
  node id hid := hr.node id fun hx => hid (hIJ hx)
  leaf id hid := hr.leaf id fun hx => hid (hIJ hx)
  page id hid := hr.page id fun hx => hid (hIJ hx)

end Rest

theorem Frame.rest (hf : Frame I G h G' h') : Rest I G h G' h' := ⟨hf.node, hf.leaf, hf.page⟩

theorem Freed.rest (hf : Freed L id G h G' h') : Rest {id} G h G' h' where
  node id' hid := by rw [hf.forest, dropTable_node_other hid]
  leaf id' hid := by rw [hf.forest, dropTable_leaf_other hid]
  page := hf.page

theorem Image.rest {n : ℕ} (hI : Image L id G h pt n G' h') : Rest {id} G h G' h' :=
  ⟨hI.node, hI.leaf, fun _ hid => hI.page hid⟩

/-- A page is taken, or a private page changes. -/
theorem Rest.addPriv (hH : Holds L G h) (hn : h p = none) (I : Set Tid) (d : PageData) :
    Rest I G h (G.addPriv p) (h.set p (some (1, d))) :=
  ⟨fun _ _ => rfl, fun _ _ => rfl, fun _ _ => by rw [page_addPriv hH hn]⟩

theorem Rest.dropPriv (hH : Holds L G h) (hp : p ∈ G.priv) (I : Set Tid) :
    Rest I G h (G.dropPriv p) (h.set p none) :=
  ⟨fun _ _ => rfl, fun _ _ => rfl, fun _ _ => by rw [page_dropPriv hH hp]⟩

/-! ## The regions -/

/-- The virtual pages of a region. -/
def Region.pages (g : Region) : Set ℕ :=
  { v | g.va / pgSize ≤ v ∧ v < g.va / pgSize + g.size / pgSize }

/-- A region that can be mapped for the kernel. -/
structure Region.Ok (g : Region) : Prop where
  aligned : g.va % pgSize = 0
  whole : g.size % pgSize = 0
  pos : g.size ≠ 0
  fits : g.va / pgSize + g.size / pgSize ≤ maxVpn
  kernel : g.perm.u = false
  some : g.perm ≠ {}

/-- The virtual pages that every kernel page table maps. -/
def kernPages (gs : List Region) : Set ℕ := { v | ∃ g ∈ gs, v ∈ g.pages }

theorem Region.Ok.of {g : Region} {n : ℕ} (hva : g.va = v * pgSize) (hsize : g.size = n * pgSize)
    (hpos : 0 < n) (hmax : v + n ≤ maxVpn) (hu : g.perm.u = false) (hr : g.perm.r = true) :
    g.Ok where
  aligned := by rw [hva, Nat.mul_mod_left]
  whole := by rw [hsize, Nat.mul_mod_left]
  pos := by
    rw [hsize]
    exact Nat.ne_of_gt (Nat.mul_pos hpos (by decide))
  fits := by rwa [hva, hsize, Nat.mul_div_cancel _ (by decide), Nat.mul_div_cancel _ (by decide)]
  kernel := hu
  some hx := by
    rw [hx] at hr
    cases hr

theorem regions_ok (L : Layout) : ∀ g ∈ regions L, g.Ok := by
  have hmax := maxVpn_eq
  have htext := L.text
  have hdata := L.data
  have hram := L.ram
  have hdev := L.devices
  have htop : physTop / pgSize = 557056 := by decide
  have hkern : kernBase = 524288 * pgSize := by decide
  have hbase : kernBase / pgSize = 524288 := by decide
  have hplic : plicSize = 16384 * pgSize := by decide
  intro g hg
  unfold regions at hg
  simp only [List.mem_cons, List.not_mem_nil, or_false] at hg
  rcases hg with rfl | rfl | rfl | rfl | rfl | rfl
  · exact .of (v := 65536) (n := 1) rfl rfl Nat.one_pos (by omega) rfl rfl
  · exact .of (v := 65537) (n := 1) rfl rfl Nat.one_pos (by omega) rfl rfl
  · refine .of (v := 49152) (n := L.plicLen / pgSize) rfl ?_ ?_ ?_ rfl rfl
    · exact (Nat.div_mul_cancel (Nat.dvd_of_mod_eq_zero hdev.2.1)).symm
    · unfold pgSize at hdev ⊢
      omega
    · unfold pgSize at hdev hplic ⊢
      omega
  · refine .of (v := 524288) (n := L.etext - 524288) hkern ?_ (by omega) (by omega) rfl rfl
    show L.etext * pgSize - kernBase = (L.etext - 524288) * pgSize
    rw [hkern, Nat.sub_mul]
  · refine .of (v := L.etext) (n := L.top - L.etext) rfl ?_ (by omega) (by omega) rfl rfl
    exact (Nat.sub_mul _ _ _).symm
  · exact .of (v := 67108863) (n := 1) rfl rfl Nat.one_pos (by omega) rfl rfl

theorem addresses : physTop / pgSize = 557056 ∧ kernBase = 524288 * 4096 ∧
    plicSize = 16384 * 4096 ∧ uart0 = 65536 * 4096 ∧ virtio0 = 65537 * 4096 ∧
    plic = 49152 * 4096 ∧ Xv6.trampoline = 67108863 * 4096 := by
  decide

/-- No page is in two of them. -/
theorem regions_apart (L : Layout) :
    (regions L).Pairwise fun g g' => ∀ v ∈ g.pages, v ∉ g'.pages := by
  have htext := L.text
  have hdata := L.data
  have hram := L.ram
  have hdev := L.devices
  obtain ⟨h1, h2, h3, h4, h5, h6, h7⟩ := addresses
  have hpg : pgSize = 4096 := rfl
  unfold regions
  simp only [List.pairwise_cons, List.mem_cons, List.not_mem_nil, or_false, forall_eq_or_imp,
    forall_eq, Region.pages, Set.mem_ofPred_eq, hpg, h2, h4, h5, h6, h7]
  rw [hpg] at h1 hram hdev htext
  refine ⟨⟨?_, ?_, ?_, ?_, ?_⟩, ⟨?_, ?_, ?_, ?_⟩, ⟨?_, ?_, ?_⟩, ⟨?_, ?_⟩, ?_, nofun, .nil⟩
  all_goals
    intro v hv
    omega

/-- They are in the machine's memory, below it, or the trampoline. -/
theorem kernPages_bounds (hv : v ∈ kernPages (regions L)) :
    49152 ≤ v ∧ v < 557056 ∨ v = 67108863 := by
  have htext := L.text
  have hdata := L.data
  have hram := L.ram
  have hdev := L.devices
  obtain ⟨h1, h2, h3, h4, h5, h6, h7⟩ := addresses
  have hpg : pgSize = 4096 := rfl
  obtain ⟨g, hg, hv⟩ := hv
  unfold regions at hg
  simp only [List.mem_cons, List.not_mem_nil, or_false] at hg
  rw [hpg] at h1 hram hdev htext
  rcases hg with rfl | rfl | rfl | rfl | rfl | rfl <;>
    simp only [Region.pages, Set.mem_ofPred_eq, hpg, h2, h4, h5, h6, h7] at hv <;> omega

/-! ## The leaves of a kernel page table -/

/-- Entries for the kernel at pages of `S`, and no others. -/
def KernLeaves (S : Set ℕ) (f : ℕ → Pte) : Prop :=
  ∀ v, Unmappable false (f v) ∧ ((f v).v = true → v ∈ S)

theorem KernLeaves.mono {T : Set ℕ} (hl : KernLeaves S f) (hST : S ⊆ T) : KernLeaves T f :=
  fun v => ⟨(hl v).1, fun hv => hST ((hl v).2 hv)⟩

theorem KernLeaves.free (hl : KernLeaves S f) (hv : v ∉ S) : (f v).v = false :=
  Bool.eq_false_iff.mpr fun hx => hv ((hl v).2 hx)

/-- A range is mapped. -/
theorem KernLeaves.map {perm : Flags} {n pa : ℕ} (hl : KernLeaves S f) (hu : perm.u = false)
    (hfl : perm ≠ {}) :
    KernLeaves (S ∪ { w | v ≤ w ∧ w < v + n }) (setRange f v n (kernPte perm pa)) := by
  intro w
  unfold setRange
  split_ifs with hw
  · exact ⟨fun _ => ⟨hu, hfl⟩, fun _ => .inr hw⟩
  · exact ⟨(hl w).1, fun hv => .inl ((hl w).2 hv)⟩

/-- A range is unmapped. -/
theorem KernLeaves.clear {n : ℕ} (hl : KernLeaves S f) :
    KernLeaves (S \ { w | v ≤ w ∧ w < v + n }) (setRange f v n fun _ => .zero) := by
  intro w
  unfold setRange
  split_ifs with hw
  · exact ⟨nofun, nofun⟩
  · exact ⟨(hl w).1, fun hv => ⟨(hl w).2 hv, hw⟩⟩

/-! ## Construction -/

variable {Q : Post Unit} {gs : List Region}

/-- The entries after the regions have been mapped. -/
def kernMap : List Region → (ℕ → Pte) → ℕ → Pte
  | [], f => f
  | g :: gs, f => kernMap gs (setRange f (g.va / pgSize) (g.size / pgSize) (kernPte g.perm g.pa))

theorem mapRegions_spec {e : Panic} (hE : E e) (hok : ∀ g ∈ gs, g.Ok)
    (hap : gs.Pairwise fun g g' => ∀ v ∈ g.pages, v ∉ g'.pages) (hH : Holds L G h)
    (hroot : G.node id .root = some pt) (hl : KernLeaves S (G.leaf id))
    (hS : ∀ g ∈ gs, ∀ v ∈ g.pages, v ∉ S)
    (hQ : ∀ G' h' b', Built L id G h G' h' → KernLeaves (S ∪ kernPages gs) (G'.leaf id) →
      G'.leaf id = kernMap gs (G.leaf id) → Q () h' b') :
    Spec L E Q (mapRegions (mapOrPanic e) pt gs) h b := by
  induction gs generalizing G h b S with
  | nil => exact hQ G h b (.refl hH id) (hl.mono Set.subset_union_left) rfl
  | cons g gs ih =>
    have hg := hok g List.mem_cons_self
    obtain ⟨hap1, hap⟩ := List.pairwise_cons.mp hap
    refine wp_seq
      (wp_seq (mappages_kernel hg.kernel hH hroot hg.aligned hg.whole hg.pos hg.fits ?_ ?_ ?_))
    · intro w h1 h2
      exact hl.free (hS g List.mem_cons_self w ⟨h1, h2⟩)
    · intro _ _ _ _ _ _ _
      exact hE
    · intro G' h' b' hb hleaf
      refine ih (S := S ∪ g.pages) (fun g' hg' => hok g' (List.mem_cons_of_mem _ hg')) hap hb.holds
        ((hb.frame.root id).trans hroot) ?_ ?_ ?_
      · rw [hleaf]
        exact hl.map hg.kernel hg.some
      · rintro g' hg' v hv (hvS | hvg)
        · exact hS g' (List.mem_cons_of_mem _ hg') v hv hvS
        · exact hap1 g' hg' v hvg hv
      · intro G'' h'' b'' hb' hl' hmap
        rw [hleaf] at hmap
        refine hQ G'' h'' b'' (hb.trans hb') (hl'.mono ?_) hmap
        rintro v ((hv | hv) | ⟨g', hg', hv⟩)
        · exact .inl hv
        · exact .inr ⟨g, List.mem_cons_self, hv⟩
        · exact .inr ⟨g', List.mem_cons_of_mem _ hg', hv⟩

/-- Table `id` is a new kernel page table with root `pt`. -/
structure KernTable (L : Layout) (id : Tid) (pt : ℕ) (G : Forest) (h : PageHeap) (G' : Forest)
    (h' : PageHeap) : Prop where
  holds : Holds L G' h'
  rest : Rest {id} G h G' h'
  priv : G'.priv = G.priv
  root : G'.node id .root = some pt
  leaves : KernLeaves (kernPages (regions L)) (G'.leaf id)
  map : G'.leaf id = kernMap (regions L) fun _ => .zero

/-- The regions are mapped in an empty table. -/
theorem mapRegions_new {e : Panic} (hE : E e) (hH : Holds L G h) (hnew : G.node id .root = none)
    (hp : p ∈ L.managed) (hfree : h p = none)
    (hQ : ∀ G' h' b', KernTable L id p G h G' h' → Q () h' b') :
    Spec L E Q (mapRegions (mapOrPanic e) p (regions L)) (h.set p (some (1, .table fun _ => .zero)))
      b := by
  have hI := Image.create hH hnew hp hfree
  have hnone : (G.addRoot id p).leaf id = fun _ => .zero := hI.new_leaf
  refine mapRegions_spec (S := ∅) hE (regions_ok L) (regions_apart L) hI.holds hI.root ?_ ?_ ?_
  · intro v
    rw [hnone]
    exact ⟨nofun, nofun⟩
  · exact fun _ _ _ _ hv => hv
  · intro G' h' b' hb hl hmap
    rw [hnone] at hmap
    refine hQ G' h' b' ⟨hb.holds, hI.rest.trans hb.frame.rest, hb.frame.priv.trans hI.priv,
      (hb.frame.root id).trans hI.root, hl.mono ?_, hmap⟩
    rw [Set.empty_union]

/-- **`proc_kpagetable`** panics when memory runs out after the root. -/
theorem procKpagetable_spec {Q : Post (Option ℕ)} (hE : E .uvmmap) (hH : Holds L G h)
    (hnew : G.node id .root = none) (hfail : Q none h b)
    (hok : ∀ kpt G' h' b', KernTable L id kpt G h G' h' → Q (some kpt) h' b') :
    Spec L E Q (procKpagetable L) h b := by
  refine wp_seq (uvmcreate_spec (fun _ => hfail) ?_)
  intro kpt hp hfree
  refine wp_seq (mapRegions_new hE hH hnew hp hfree ?_)
  exact fun G' h' b' => hok kpt G' h' b'

theorem kvmmake_spec {Q : Post ℕ} (hE1 : E .null) (hE2 : E .kvmmap) (hH : Holds L G h)
    (hnew : G.node id .root = none)
    (hok : ∀ kpt G' h' b', KernTable L id kpt G h G' h' → Q kpt h' b') :
    Spec L E Q (kvmmake L) h b := by
  refine wp_seq (kalloc_spec (fun _ => hE1) ?_)
  intro kpt hp hfree _
  refine wp_seq (write_spec (set_same h kpt _) ?_)
  rw [set_set]
  refine wp_seq (mapRegions_new hE2 hH hnew hp hfree ?_)
  exact fun G' h' b' => hok kpt G' h' b'

/-! ## Release -/

theorem unmapRegions_spec (hok : ∀ g ∈ gs, g.Ok) (hH : Holds L G h)
    (hroot : G.node id .root = some pt) (hl : KernLeaves S (G.leaf id))
    (hQ : ∀ G' h' b', Holds L G' h' → Frame {id} G h G' h' →
      KernLeaves (S \ kernPages gs) (G'.leaf id) → Q () h' b') :
    Spec L E Q (unmapRegions L pt gs) h b := by
  induction gs generalizing G h b S with
  | nil =>
    refine hQ G h b hH (.refl _ G h) (hl.mono fun v hv => ⟨hv, ?_⟩)
    rintro ⟨_, hg, _⟩
    cases hg
  | cons g gs ih =>
    have hg := hok g List.mem_cons_self
    refine wp_seq (uvmunmap_spec hH hroot hg.aligned hg.fits (fun w _ _ => (hl w).1) ?_)
    intro G' h' b' hu _
    refine ih (S := S \ g.pages) (fun g' hg' => hok g' (List.mem_cons_of_mem _ hg')) hu.holds
      ((hu.frame.root id).trans hroot) ?_ ?_
    · rw [hu.leaf]
      exact hl.clear
    · intro G'' h'' b'' hH'' hf hl'
      refine hQ G'' h'' b'' hH'' (hu.frame.trans hf) (hl'.mono ?_)
      rintro v ⟨⟨hv, hvg⟩, hvgs⟩
      refine ⟨hv, ?_⟩
      rintro ⟨g', hg', hvg'⟩
      rcases List.mem_cons.mp hg' with rfl | hg'
      · exact hvg hvg'
      · exact hvgs ⟨g', hg', hvg'⟩

/-- The page that an entry for a kernel stack maps. -/
def Pte.stack (e : Pte) : Set ℕ := { q | e.v = true ∧ q = e.ppn }

theorem uvmunmap_one {doFree : Bool} (hva : va % pgSize = 0) :
    uvmunmap L pt va 1 doFree = (unmapPage L pt doFree va >>= fun _ => .ret ()) := by
  unfold uvmunmap
  rw [if_neg (by simp [hva])]
  show (unmapPage L pt doFree (va + 0 * pgSize)).bind _ = _
  rw [Nat.zero_mul, Nat.add_zero]
  rfl

/-- The kernel stack is unmapped and its page given back. -/
theorem unmapStack_spec (hH : Holds L G h) (hroot : G.node id .root = some pt)
    (hva : va % pgSize = 0) (hmax : va / pgSize < maxVpn)
    (hk : Unmappable false (G.leaf id (va / pgSize)))
    (hstk : (G.leaf id (va / pgSize)).v = true → (G.leaf id (va / pgSize)).ppn ∈ G.priv)
    (hQ : ∀ G' h' b', Holds L G' h' → Rest {id} G h G' h' → G'.node = G.node →
      G'.leaf id = update (G.leaf id) (va / pgSize) .zero →
      G'.priv = G.priv \ (G.leaf id (va / pgSize)).stack → Q () h' b') :
    Spec L E Q (uvmunmap L pt va 1 true) h b := by
  by_cases hv : (G.leaf id (va / pgSize)).v = true
  · -- the page is the kernel's, so the general rule does not apply
    obtain ⟨hu, hfl⟩ := hk hv
    have hq := hstk hv
    obtain ⟨hvm, t, ht⟩ := hH.toShape.bot_of_leaf hv
    have hlt : va < maxVa := by
      have h1 := maxVpn_eq
      unfold maxVa
      unfold pgSize at hmax
      omega
    have hold : ∀ q, (G.leaf id (va / pgSize)).maps q = false := by
      intro q
      unfold Pte.maps
      rw [hu, Bool.and_false]
      rfl
    rw [uvmunmap_one hva]
    refine wp_seq (wp_seq (walk_find hH hroot hlt ?_ ?_))
    · intro hn
      rw [hn] at ht
      cases ht
    intro t' ht'
    obtain rfl : t = t' := Option.some.inj (ht.symm.trans ht')
    have htab := hH.table id _ t ht
    have hqt : t ≠ (G.leaf id (va / pgSize)).ppn := by
      intro hx
      exact hH.apart t ⟨id, _, ht⟩ (hx ▸ hq)
    refine wp_seq (readPte_spec htab ?_)
    rw [Shape.entry hvm, if_neg (by simp [hv]), if_neg hfl, if_pos rfl]
    refine wp_seq (kfree_priv hH hq ?_)
    intro b' _
    have hb := Built.setLeaf (e := .zero) (hH.dropPriv hq) hvm ht hold maps_zero
    refine setPte_spec ((set_ne h _ hqt).trans htab) ?_
    refine hQ _ _ b' hb.holds ((Rest.dropPriv hH hq {id}).trans hb.frame.rest) rfl ?_ ?_
    · exact setLeaf_leaf
    · rw [setLeaf_priv]
      ext q
      simp [Forest.dropPriv, Pte.stack, hv]
  · have hv : (G.leaf id (va / pgSize)).v = false := Bool.eq_false_iff.mpr hv
    refine uvmunmap_spec hH hroot hva hmax ?_ ?_
    · intro w h1 h2
      obtain rfl : w = va / pgSize := by omega
      exact fun hx => absurd hx (by rw [hv]; exact Bool.false_ne_true)
    · intro G' h' b' hu _
      refine hQ G' h' b' hu.holds hu.frame.rest hu.node ?_ ?_
      · rw [hu.leaf, setRange_one]
      · rw [hu.frame.priv]
        ext q
        simp [Pte.stack, hv]

/-- **`proc_free_kpagetable`.** -/
theorem procFreeKpagetable_spec (hH : Holds L G h) (hroot : G.node id .root = some pt)
    (hva : va % pgSize = 0) (hmax : va / pgSize < maxVpn)
    (hl : KernLeaves (kernPages (regions L) ∪ {va / pgSize}) (G.leaf id))
    (hstk : (G.leaf id (va / pgSize)).v = true → (G.leaf id (va / pgSize)).ppn ∈ G.priv)
    (hQ : ∀ G' h' b', Holds L G' h' → Rest {id} G h G' h' → G'.node id .root = none →
      G'.priv = G.priv \ (G.leaf id (va / pgSize)).stack → Q () h' b') :
    Spec L E Q (procFreeKpagetable L pt va) h b := by
  refine wp_seq (unmapStack_spec hH hroot hva hmax (hl _).1 hstk ?_)
  intro G1 h1 b1 hH1 hr1 hn1 hl1 hp1
  have hroot1 : G1.node id .root = some pt := by
    rw [hn1]
    exact hroot
  have hleaf1 : KernLeaves (kernPages (regions L)) (G1.leaf id) := by
    rw [hl1, ← setRange_one _ fun _ => .zero]
    refine hl.clear.mono ?_
    rintro w ⟨hw | hw, hne⟩
    · exact hw
    · obtain rfl := Set.mem_singleton_iff.mp hw
      exact absurd ⟨Nat.le_refl _, Nat.lt_succ_self _⟩ hne
  refine wp_seq (unmapRegions_spec (regions_ok L) hH1 hroot1 hleaf1 ?_)
  intro G2 h2 b2 hH2 hf2 hl2
  unfold uvmfree
  rw [if_neg (Nat.lt_irrefl 0)]
  refine freewalk_freed hH2 ((hf2.root id).trans hroot1) (fun v => ?_) ?_
  · exact hl2.free fun hx => hx.2 hx.1
  · intro G3 h3 b3 hf3
    refine hQ G3 h3 b3 hf3.holds ((hr1.trans hf2.rest).trans hf3.rest) ?_ ?_
    · rw [hf3.forest, dropTable_node_same]
    · rw [hf3.forest]
      exact hf2.priv.trans hp1

end Xv6.Vm
