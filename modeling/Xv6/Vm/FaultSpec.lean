/-
  Page faults: `vmfault`, `cow_handler` and the page-fault branches of `usertrap`.

  A fault is resolved by a fresh page of zeros or by a private copy. Either way one leaf entry of
  the faulting table changes, and user memory reads as before.
-/
import Xv6.Vm.Image
import Xv6.Vm.FreeSpec

namespace Xv6.Vm

open Lib Function Forest Heap

variable {L : Layout} {E : Panic → Prop} {G G' G'' : Forest} {h h' h'' : PageHeap} {id : Tid}
  {t v n va pt mem old sz b b' : ℕ} {e : Pte} {f f' : ℕ → Pte}

/-! ## The leaves of a user page table -/

/-- The virtual pages of the trapframe and of the trampoline. -/
abbrev tfVpn : ℕ := trapframeVa / pgSize

abbrev tpVpn : ℕ := trampoline / pgSize

theorem tfVpn_eq : tfVpn = 67108862 := by decide

theorem tpVpn_eq : tpVpn = 67108863 := by decide

theorem maxVpn_eq : maxVpn = 67108864 := by decide

/-- User pages below page `n`, and above only the two mappings of the kernel. -/
structure UserLeaves (f : ℕ → Pte) (n : ℕ) : Prop where
  bound : n ≤ tfVpn
  user : ∀ v, v < n → Unmappable true (f v)
  above : ∀ v, n ≤ v → v ≠ tfVpn → v ≠ tpVpn → (f v).v = false
  trapframe : Unmappable false (f tfVpn)
  trampoline : Unmappable false (f tpVpn)

/-- A larger size, without a new entry. -/
theorem UserLeaves.widen {m : ℕ} (hl : UserLeaves f n) (hnm : n ≤ m) (hm : m ≤ tfVpn) :
    UserLeaves f m where
  bound := hm
  user v hv := by
    have h1 := tfVpn_eq
    have h2 := tpVpn_eq
    by_cases hvn : v < n
    · exact hl.user v hvn
    · intro hx
      rw [hl.above v (by omega) (by omega) (by omega)] at hx
      cases hx
  above v hv := hl.above v (Nat.le_trans hnm hv)
  trapframe := hl.trapframe
  trampoline := hl.trampoline

/-- An entry for user mode can be unmapped with its page. -/
theorem Unmappable.of_user (hu : e.u = true) : Unmappable true e := by
  refine fun _ => ⟨hu, fun hx => ?_⟩
  have := congrArg Flags.u hx
  rw [hu] at this
  cases this

/-- Only entries below the size have changed, and they are for user mode. -/
def Touches (sz : ℕ) (f f' : ℕ → Pte) : Prop :=
  ∀ v, f' v = f v ∨ v * pgSize < sz ∧ (f' v).u = true

theorem Touches.refl (sz : ℕ) (f : ℕ → Pte) : Touches sz f f := fun _ => .inl rfl

theorem Touches.trans {f'' : ℕ → Pte} (h1 : Touches sz f f') (h2 : Touches sz f' f'') :
    Touches sz f f'' := by
  intro v
  rcases h2 v with heq | hnew
  · rw [heq]
    exact h1 v
  · exact .inr hnew

theorem Touches.mono {psz : ℕ} (ht : Touches sz f f') (hsz : sz ≤ psz) : Touches psz f f' :=
  fun v => (ht v).imp_right fun hx => ⟨hx.1.trans_le hsz, hx.2⟩

theorem Touches.update (hv : v * pgSize < sz) (hu : e.u = true) : Touches sz f (update f v e) := by
  intro w
  by_cases hw : w = v
  · rw [hw, update_self]
    exact .inr ⟨hv, hu⟩
  · rw [update_of_ne hw]
    exact .inl rfl

theorem UserLeaves.touch (hl : UserLeaves f (pageCount sz)) (ht : Touches sz f f') :
    UserLeaves f' (pageCount sz) := by
  have h1 := tfVpn_eq
  have h2 := tpVpn_eq
  have hb := hl.bound
  have hout : ∀ v, pageCount sz ≤ v → f' v = f v := by
    intro v hv
    rcases ht v with heq | ⟨hlt, _⟩
    · exact heq
    · exact absurd (lt_pageCount.mpr hlt) (Nat.not_lt.mpr hv)
  refine ⟨hb, ?_, ?_, ?_, ?_⟩
  · intro v hv
    rcases ht v with heq | ⟨_, hu⟩
    · rw [heq]
      exact hl.user v hv
    · exact .of_user hu
  · intro v hv h3 h4
    rw [hout v hv]
    exact hl.above v hv h3 h4
  · rw [hout _ (by omega)]
    exact hl.trapframe
  · rw [hout _ (by omega)]
    exact hl.trampoline

theorem UserLeaves.size_le (hl : UserLeaves f (pageCount sz)) : sz ≤ maxVa := by
  have hb := hl.bound
  have h1 := tfVpn_eq
  unfold pageCount pgRoundUp pgSize at hb
  unfold maxVa
  omega

/-- A valid entry below the size is for user mode. -/
theorem UserLeaves.user_of_lt (hl : UserLeaves f (pageCount sz)) (hva : va < sz)
    (hv : (f (va / pgSize)).v = true) : (f (va / pgSize)).u = true := by
  refine (hl.user _ (lt_pageCount.mpr ?_) hv).1
  exact Nat.lt_of_le_of_lt (Nat.div_mul_le_self va pgSize) hva

/-- Table `id` of a process of `sz` bytes may have changed. -/
structure Kept (L : Layout) (id : Tid) (sz : ℕ) (G : Forest) (h : PageHeap) (G' : Forest)
    (h' : PageHeap) : Prop where
  holds : Holds L G' h'
  frame : Frame {id} G h G' h'
  leaf : Touches sz (G.leaf id) (G'.leaf id)

theorem Kept.trans (h1 : Kept L id sz G h G' h') (h2 : Kept L id sz G' h' G'' h'') :
    Kept L id sz G h G'' h'' :=
  ⟨h2.holds, h1.frame.trans h2.frame, h1.leaf.trans h2.leaf⟩

/-- And user memory reads as before. -/
structure Same (L : Layout) (id : Tid) (sz : ℕ) (G : Forest) (h : PageHeap) (G' : Forest)
    (h' : PageHeap) : Prop extends Kept L id sz G h G' h' where
  page : G'.page h' id = G.page h id

theorem Same.refl (hH : Holds L G h) (id : Tid) (sz : ℕ) : Same L id sz G h G h :=
  ⟨⟨hH, .refl _ G h, .refl sz _⟩, rfl⟩

theorem Same.trans (h1 : Same L id sz G h G' h') (h2 : Same L id sz G' h' G'' h'') :
    Same L id sz G h G'' h'' :=
  ⟨h1.toKept.trans h2.toKept, h2.page.trans h1.page⟩

theorem Idle.same (hi : Idle L id G h G' h') (sz : ℕ) : Same L id sz G h G' h' :=
  ⟨⟨hi.holds, hi.frame, by rw [hi.leaf]; exact .refl sz _⟩, by rw [hi.page]⟩

theorem Filled.same {perm : Flags} (hf : Filled L id v perm G h b G' h' b') (hu : perm.u = true)
    (hv : v * pgSize < sz) : Same L id sz G h G' h' := by
  obtain ⟨mem, hl, _⟩ := hf.leaf
  refine ⟨⟨hf.holds, hf.frame, ?_⟩, hf.page⟩
  rw [hl]
  exact .update hv hu

/-- The flags of a page that `vmfault` maps. -/
abbrev lazyFlags : Flags := { w := true, u := true, r := true }

/-! ## `vmfault` -/

theorem ismapped_spec {Q : Post Bool} (hH : Holds L G h) (hroot : G.node id .root = some pt)
    (hva : va < maxVa) (hQ : Q (G.leaf id (va / pgSize)).v h b) :
    Spec L E Q (ismapped pt va) h b := by
  refine wp_seq (walk_find hH hroot hva ?_ ?_)
  · intro hn
    rw [hH.toShape.leaf_zero hn] at hQ
    exact hQ
  · intro t ht
    refine wp_seq (readPte_spec (hH.table id _ t ht) ?_)
    rw [Shape.entry (vpn_lt hva)]
    exact hQ

/-- Without a page only for want of free pages: at most the page and the missing nodes are
    taken. -/
theorem vmfault_spec {Q : Post (Option ℕ)} {p : Cur} (hH : Holds L G h)
    (hroot : G.node id .root = some p.pagetable) (hsz : p.sz ≤ maxVa)
    (hout : p.sz ≤ va ∨ (G.leaf id (va / pgSize)).v = true → Q none h b)
    (hfail : ∀ G' h' b', va < p.sz → (G.leaf id (va / pgSize)).v = false → Idle L id G h G' h' →
      b + built (way (va / pgSize)) G id < 3 → Q none h' b')
    (hok : ∀ G' h' b' mem, va < p.sz → (G.leaf id (va / pgSize)).v = false →
      Filled L id (va / pgSize) lazyFlags G h b G' h' b' →
      G'.leaf id (va / pgSize) = { lazyFlags with v := true, ppn := mem } → Q (some mem) h' b') :
    Spec L E Q (vmfault L p p.pagetable va) h b := by
  unfold vmfault
  split
  · rename_i hge
    exact hout (.inl hge)
  · rename_i hlt
    have hlt : va < p.sz := Nat.lt_of_not_le hlt
    have hdown : pgRoundDown va < maxVa := Nat.lt_of_le_of_lt (pgRoundDown_le va) (by omega)
    refine wp_seq (ismapped_spec hH hroot hdown ?_)
    rw [pgRoundDown_div]
    split
    · next hv =>
      exact hout (.inr hv)
    · next hv =>
      have hv : (G.leaf id (va / pgSize)).v = false := Bool.eq_false_iff.mpr hv
      refine wp_seq (kalloc_spec ?_ ?_)
      · intro hb
        have := built_way_le (va / pgSize) G id
        exact hfail G h b hlt hv ⟨hH, .refl _ G h, .refl G h, rfl, rfl⟩ (by omega)
      · intro mem hmem hfree hserve
        refine fill_spec hH hroot (pgRoundDown_mod va) rfl hmem hfree hserve hdown ?_ ?_ ?_
        · rw [pgRoundDown_div]
          exact hv
        · intro G' h' b' hf hl
          rw [pgRoundDown_div] at hf hl
          exact hok G' h' b' mem hlt hv hf hl
        · intro G' h' b' hi hn
          rw [pgRoundDown_div] at hn
          exact hfail G' h' b' hlt hv hi hn

/-! ## `cow_handler` -/

/-- Page `v` of table `id` is a private copy that can be written. -/
structure Copied (L : Layout) (id : Tid) (v : ℕ) (G : Forest) (h : PageHeap) (G' : Forest)
    (h' : PageHeap) : Prop where
  holds : Holds L G' h'
  frame : Frame {id} G h G' h'
  leaf : ∃ mem, G'.leaf id =
    update (G.leaf id) v { G.leaf id v with w := true, cow := false, ppn := mem }
  page : G'.page h' id = G.page h id

theorem Copied.same (hc : Copied L id v G h G' h') (hu : (G.leaf id v).u = true)
    (hv : v * pgSize < sz) : Same L id sz G h G' h' := by
  obtain ⟨mem, hl⟩ := hc.leaf
  refine ⟨⟨hc.holds, hc.frame, ?_⟩, hc.page⟩
  rw [hl]
  exact .update hv hu

theorem Copied.of_remap {f : ℕ → UInt8} (hH : Holds L G h) (hv : v < maxVpn)
    (ht : G.node id (botOf v) = some t) (he : (G.leaf id v).maps old = true)
    (hmem : mem ∈ L.managed) (hfree : h mem = none) (hf : f = G.page h id v)
    (hent : e = { G.leaf id v with w := true, cow := false, ppn := mem }) :
    Copied L id v G h (((G.addPriv mem).setLeaf id v e).dropPriv mem)
      ((Holds.setEntry (h.set mem (some (1, .bytes f))) t (G.entries id (botOf v)) (ix0 v) e).set
        old
        (lessRef (h old))) := by
  obtain ⟨hvv, hu, hold⟩ := maps_iff.mp he
  obtain ⟨hk, hpos, hcell⟩ := hH.of_leaf he
  have hmk := hH.not_kern_of_none hfree
  have he' : e.maps mem = true := hent ▸ maps_iff.mpr ⟨hvv, hu, rfl⟩
  have hom : old ≠ mem := by
    rintro rfl
    exact hcell.held hpos hfree
  have htN : G.Node t := ⟨id, _, ht⟩
  have hmt : mem ≠ t := by
    rintro rfl
    exact hmk (.inl htN)
  have hH1 : Holds L (G.addPriv mem) (h.set mem (some (1, .bytes f))) := hH.addPriv hmem hfree
  have hH2 : Holds L (((G.addPriv mem).setLeaf id v e).dropPriv mem)
      ((Holds.setEntry (h.set mem (some (1, .bytes f))) t (G.entries id (botOf v)) (ix0 v) e).set
        old
        (lessRef (h old))) := by
    have hre := hH1.remap hv ht he he' (.inl rfl) (set_same h mem _)
    rw [set_ne h _ hom] at hre
    exact hre
  have hcellq : ∀ q, q ≠ mem → q ≠ t → q ≠ old →
      ((Holds.setEntry (h.set mem (some (1, .bytes f))) t (G.entries id (botOf v)) (ix0 v) e).set
        old
        (lessRef (h old))) q = h q := by
    intro q h1 h2 h3
    rw [set_ne _ _ h3, Holds.setEntry_ne _ _ _ _ h2, set_ne _ _ h1]
  have hprivne : ∀ r ∈ G.priv, r ≠ mem ∧ r ≠ t ∧ r ≠ old := by
    refine fun r hr => ⟨?_, ?_, ?_⟩ <;> rintro rfl
    · exact hmk (.inr hr)
    · exact hH.apart r htN hr
    · exact hk (.inr hr)
  -- the pages that other entries map keep their contents
  have hkeep : ∀ id' v', ¬ (id' = id ∧ v' = v) →
    (((G.addPriv mem).setLeaf id v e).dropPriv mem).page
        ((Holds.setEntry (h.set mem (some (1, .bytes f))) t (G.entries id (botOf v)) (ix0 v) e).set
          old
          (lessRef (h old))) id' v' = G.page h id' v' := by
    intro id' v' hne
    have hl : (((G.addPriv mem).setLeaf id v e).dropPriv mem).leaf id' v' = G.leaf id' v' := by
      rw [dropPriv_leaf, setLeaf_other hne]
      rfl
    by_cases hvu : (G.leaf id' v').v = true ∧ (G.leaf id' v').u = true
    · have hm' : (G.leaf id' v').maps (G.leaf id' v').ppn = true := maps_iff.mpr ⟨hvu.1, hvu.2, rfl⟩
      obtain ⟨hk', hpos', hc'⟩ := hH.of_leaf hm'
      refine hH2.page_keep hl ?_
      by_cases hpo : (G.leaf id' v').ppn = old
      · rw [hpo, set_same]
        exact .inr rfl
      · rw [hcellq _ ?_ ?_ hpo]
        · exact .inl rfl
        · intro hx
          exact hc'.held hpos' (hx ▸ hfree)
        · intro hx
          exact hk' (hx ▸ .inl htN)
    · exact page_congr hl fun h1 h2 => absurd ⟨h1, h2⟩ hvu
  refine ⟨hH2, ⟨fun _ _ => rfl, ?_, fun _ => rfl, ?_, ?_, ?_⟩, ⟨mem, ?_⟩, ?_⟩
  · intro id' hid
    rw [dropPriv_leaf, setLeaf_id hid]
    rfl
  · ext r
    rw [mem_dropPriv, setLeaf_priv, mem_addPriv]
    exact ⟨fun hx => hx.1.resolve_left hx.2, fun hx => ⟨.inr hx, (hprivne r hx).1⟩⟩
  · intro r hr
    obtain ⟨h1, h2, h3⟩ := hprivne r hr
    exact hcellq r h1 h2 h3
  · intro id' hid
    funext v'
    exact hkeep id' v' fun hx => hid hx.1
  · rw [dropPriv_leaf, setLeaf_leaf, hent]
    rfl
  · funext v'
    by_cases hv' : v' = v
    · subst hv'
      refine (page_mapped (p := mem) (n := 1) ?_ ?_).trans hf
      · rw [dropPriv_leaf, setLeaf_same]
        exact he'
      · rw [set_ne _ _ (Ne.symm hom), Holds.setEntry_ne _ _ _ _ hmt, set_same]
    · exact hkeep id v' fun hx => hv' hx.2

theorem cowHandler_spec {Q : Post Bool} (hH : Holds L G h) (hroot : G.node id .root = some pt)
    (hva : va < maxVa)
    (hu : (G.leaf id (va / pgSize)).v = true → (G.leaf id (va / pgSize)).u = true)
    (hout : (G.leaf id (va / pgSize)).v = false ∨ (G.leaf id (va / pgSize)).cow = false →
      Q false h b)
    (hfail : b = 0 → Q false h b)
    (hok : ∀ G' h' b', (G.leaf id (va / pgSize)).v = true → (G.leaf id (va / pgSize)).cow = true →
      Copied L id (va / pgSize) G h G' h' → b ≤ b' + 1 → Q true h' b') :
    Spec L E Q (cowHandler L pt va) h b := by
  have hdown : pgRoundDown va < maxVa := Nat.lt_of_le_of_lt (pgRoundDown_le va) hva
  unfold cowHandler
  rw [if_neg (Nat.not_le.mpr hdown)]
  refine wp_seq (walk_find hH hroot hdown ?_ ?_)
  · intro hn
    rw [pgRoundDown_div] at hn
    exact hout (.inl (by rw [hH.toShape.leaf_zero hn]; rfl))
  · intro t ht
    rw [pgRoundDown_div] at ht ⊢
    have hv := vpn_lt hva
    have htab := hH.table id _ t ht
    refine wp_seq (readPte_spec htab ?_)
    rw [Shape.entry hv]
    split
    · rename_i hnot
      exact hout hnot
    · rename_i hcow
      simp only [not_or, Bool.not_eq_false] at hcow
      obtain ⟨hvv, hcw⟩ := hcow
      have he : (G.leaf id (va / pgSize)).maps (G.leaf id (va / pgSize)).ppn = true :=
        maps_iff.mpr ⟨hvv, hu hvv, rfl⟩
      generalize hold : (G.leaf id (va / pgSize)).ppn = old at he ⊢
      have hk := (hH.of_leaf he).1
      have hcell := hH.cell_leaf he
      refine wp_seq (kalloc_spec hfail ?_)
      intro mem hmem hfree hserve
      have hom : old ≠ mem := by
        rintro rfl
        rw [hfree] at hcell
        cases hcell
      have htm : t ≠ mem := by
        rintro rfl
        exact hH.not_kern_of_none hfree (.inl ⟨id, _, ht⟩)
      have hot : old ≠ t := by
        rintro rfl
        exact hk (.inl ⟨id, _, ht⟩)
      refine wp_seq (readBytes_spec ((set_ne h _ hom).trans hcell) ?_)
      refine wp_seq (write_spec (set_same h mem _) ?_)
      rw [set_set]
      have hcop := Copied.of_remap hH hv ht he hmem hfree rfl rfl
      refine wp_seq (setPte_spec ((set_ne h _ htm).trans htab) ?_)
      -- the entry is the copy's before the old page is given back
      have hpos := (hH.of_leaf he).2.1
      obtain ⟨n, hn⟩ := Nat.exists_eq_succ_of_ne_zero (Nat.ne_of_gt hpos)
      have hcold : ∀ c c', ((h.set mem c).set t c') old = h old := by
        intro c c'
        rw [set_ne _ _ hot, set_ne h _ hom]
      rw [hn] at hcell
      refine wp_seq (kfree_spec (hH.managed_of_leaf he) ((hcold _ _).trans hcell) ?_)
      intro b' hb
      rw [hcold]
      exact hok _ _ b' hvv hcw hcop (by omega)

/-! ## `usertrap` -/

/-- User mode may make the access through this entry. -/
def Pte.permits (e : Pte) (store : Bool) : Bool := e.v && e.u && (if store then e.w else e.r)

/-- A fault that is the kernel's to resolve: the page has not been mapped yet, or it is a store to
    a copy-on-write page. -/
def LegalFault (e : Pte) (store : Bool) : Prop :=
  e.v = false ∨ store = true ∧ e.v = true ∧ e.cow = true

instance (e : Pte) (store : Bool) : Decidable (LegalFault e store) :=
  inferInstanceAs (Decidable (_ ∨ _))

/-- How a page fault ends: user memory reads as before, and with three free pages what decides about
    a legal fault is the address. -/
structure Faulted (L : Layout) (id : Tid) (p : Cur) (store : Bool) (va : ℕ) (G : Forest)
    (h : PageHeap) (b : ℕ) (r : Bool) (G' : Forest) (h' : PageHeap) (b' : ℕ) : Prop where
  same : Same L id p.sz G h G' h'
  other : ∀ v, v ≠ va / pgSize → G'.leaf id v = G.leaf id v
  spent : r = true → b ≤ b' + 3
  resolved : va < p.sz → LegalFault (G.leaf id (va / pgSize)) store → 3 ≤ b →
    (r = true ∧ (G'.leaf id (va / pgSize)).permits store = true ↔ pgSize ≤ va ∧ va < kernBase)

section

variable {p : Cur} {store : Bool} (hH : Holds L G h) (hroot : G.node id .root = some p.pagetable)
  (hl : UserLeaves (G.leaf id) (pageCount p.sz))

include hH hroot hl

/-- The fault is left to `vmfault`. -/
theorem lazyFault_spec (hva : va < p.sz) (hcond : pgSize ≤ va ∧ va < kernBase)
    (hlegal : LegalFault (G.leaf id (va / pgSize)) store → (G.leaf id (va / pgSize)).v = false ∨
      b < 3) :
    Spec L E (fun r h' b' => ∃ G', Faulted L id p store va G h b r G' h' b')
      (do let r ← vmfault L p p.pagetable va; .ret r.isSome) h b := by
  have hlt : va / pgSize * pgSize < p.sz := Nat.lt_of_le_of_lt (Nat.div_mul_le_self _ _) hva
  refine wp_seq (vmfault_spec hH hroot hl.size_le ?_ ?_ ?_)
  · intro hno
    refine ⟨G, .refl hH id _, fun _ _ => rfl, nofun, fun _ hleg hb => ?_⟩
    rcases hno with hge | hv
    · omega
    · rcases hlegal hleg with hv' | hb'
      · rw [hv] at hv'
        cases hv'
      · omega
  · intro G' h' b' _ _ hi hfew
    refine ⟨G', hi.same _, fun v _ => by rw [hi.leaf], nofun, fun _ _ hb => ?_⟩
    omega
  · intro G' h' b' mem _ _ hf hleaf
    obtain ⟨mem', hall, _⟩ := hf.leaf
    refine ⟨G', hf.same rfl hlt, ?_, fun _ => hf.spent.2, fun _ _ _ =>
      ⟨fun _ => hcond, fun _ => ⟨rfl, ?_⟩⟩⟩
    · intro v hv
      rw [hall, update_of_ne hv]
    · rw [hleaf]
      cases store <;> rfl

/-- **`usertrap`** for a page fault. -/
theorem pageFault_spec :
    Spec L E (fun r h' b' => ∃ G', Faulted L id p store va G h b r G' h' b')
      (pageFault L p store va) h b := by
  have hsame : ¬ (va < p.sz ∧ pgSize ≤ va ∧ va < kernBase) →
      Faulted L id p store va G h b false G h b := by
    intro hno
    refine ⟨.refl hH id _, fun _ _ => rfl, nofun, fun hva _ _ =>
      ⟨(fun hr => nomatch hr.1), fun hr => ?_⟩⟩
    exact absurd ⟨hva, hr⟩ hno
  unfold pageFault
  split
  · rename_i hhigh
    exact ⟨G, hsame fun hx => absurd hx.2.2 (Nat.not_lt.mpr hhigh)⟩
  rename_i hlow
  split
  · rename_i hbad
    refine ⟨G, hsame fun ⟨h1, h2, _⟩ => ?_⟩
    unfold pgRoundDown at hbad
    unfold pgSize at hbad h2
    omega
  rename_i hpage
  rw [not_or] at hpage
  have hva : va < p.sz := Nat.lt_of_not_le hpage.1
  have hcond : pgSize ≤ va ∧ va < kernBase := by
    refine ⟨?_, Nat.lt_of_not_le hlow⟩
    by_contra hlt
    refine hpage.2 ?_
    unfold pgRoundDown
    rw [Nat.div_eq_of_lt (Nat.lt_of_not_le hlt), Nat.zero_mul]
  cases store with
  | false =>
    refine lazyFault_spec hH hroot hl hva hcond fun hleg => .inl ?_
    exact hleg.resolve_right fun hx => nomatch hx.1
  | true =>
    have hmax : va < maxVa := Nat.lt_of_lt_of_le hva hl.size_le
    refine wp_seq (cowHandler_spec hH hroot hmax (hl.user_of_lt hva) ?_ ?_ ?_)
    · intro hnot
      refine lazyFault_spec hH hroot hl hva hcond fun hleg => .inl ?_
      rcases hleg with hv | ⟨_, hv, hcow⟩
      · exact hv
      · rcases hnot with hv' | hcow'
        · exact hv'
        · rw [hcow'] at hcow
          cases hcow
    · intro hb
      exact lazyFault_spec hH hroot hl hva hcond fun _ => .inr (by omega)
    · intro G' h' b' hv hcow hc hb
      obtain ⟨mem, hall⟩ := hc.leaf
      have hu := hl.user_of_lt hva hv
      have hlt : va / pgSize * pgSize < p.sz := Nat.lt_of_le_of_lt (Nat.div_mul_le_self _ _) hva
      refine ⟨G', hc.same hu hlt, ?_, fun _ => by omega, fun _ _ _ =>
        ⟨fun _ => hcond, fun _ => ⟨rfl, ?_⟩⟩⟩
      · intro v hv
        rw [hall, update_of_ne hv]
      · rw [hall, update_self]
        show (((G.leaf id (va / pgSize)).v && (G.leaf id (va / pgSize)).u) && true) = true
        rw [hv, hu]
        rfl

end

end Xv6.Vm
