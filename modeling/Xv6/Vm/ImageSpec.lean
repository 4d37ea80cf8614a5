/-
  A user page table under construction, and how one is given back.

  `Image` says what holds while table `id` is being filled: user pages below page `n`, the mappings
  of the trapframe and the trampoline, and nothing else; and all that was there before is as it was.
  Giving the table back restores the heap exactly.
-/
import Xv6.Vm.CopySpec
import Xv6.Vm.FreeSpec

namespace Xv6.Vm

open Lib Function Forest

variable {L : Layout} {E : Panic → Prop} {G G' G₀ : Forest} {h h' h₀ : PageHeap} {id id' : Tid}
  {p q t v n m va pt sz tf b b' : ℕ} {e : Pte}

/-! ## Giving a table back -/

/-- Table `id` is gone with the references of its leaves. -/
structure Freed (L : Layout) (id : Tid) (G : Forest) (h : PageHeap) (G' : Forest) (h' : PageHeap) :
    Prop where
  holds : Holds L G' h'
  forest : G' = G.dropTable id
  page : ∀ id', id' ≠ id → G'.page h' id' = G.page h id'
  cell : ∀ p, h p ≠ none → ¬ G.Node p → (∀ v, (G.leaf id v).maps p = false) → h' p = h p

theorem Forest.dropTable_congr (hn : G'.node = G.node)
    (hl : ∀ id', id' ≠ id → G'.leaf id' = G.leaf id')
    (hp : G'.priv = G.priv) : G'.dropTable id = G.dropTable id := by
  unfold dropTable
  rw [hn, hp]
  congr 1
  funext id'
  by_cases hid : id' = id
  · rw [hid, update_self, update_self]
  · rw [update_of_ne hid, update_of_ne hid, hl id' hid]

theorem Unmapped.maps_false (hu : Unmapped L id v n G h G' h') {w p : ℕ}
    (hm : (G.leaf id w).maps p = false) : (G'.leaf id w).maps p = false := by
  rw [hu.leaf]
  unfold setRange
  split_ifs
  · rfl
  · exact hm

theorem Unmapped.not_node (hu : Unmapped L id v n G h G' h') (hN : ¬ G.Node p) : ¬ G'.Node p := by
  rintro ⟨id', π, hp⟩
  rw [hu.node] at hp
  exact hN ⟨id', π, hp⟩

/-- Unmapping before the table goes. -/
theorem Freed.of_unmapped {h'' : PageHeap} {G'' : Forest} (hu : Unmapped L id v n G h G' h')
    (hf : Freed L id G' h' G'' h'') : Freed L id G h G'' h'' where
  holds := hf.holds
  forest := hf.forest.trans
    (dropTable_congr hu.node (fun id' hid => hu.frame.leaf id' hid) hu.frame.priv)
  page id' hid := (hf.page id' hid).trans (hu.frame.page id' hid)
  cell p hp hN hm := by
    have hc := hu.cell p hp hN fun w _ _ => hm w
    rw [hf.cell p (by rw [hc]; exact hp) (hu.not_node hN) fun w => hu.maps_false (hm w), hc]

variable {Q : Post Unit}

theorem freewalk_freed (hH : Holds L G h) (hroot : G.node id .root = some pt)
    (hl : ∀ v, (G.leaf id v).v = false) (hQ : ∀ G' h' b', Freed L id G h G' h' → Q () h' b') :
    Spec L E Q (freewalk L 3 pt) h b := by
  refine freewalk_table hH hroot hl ?_
  intro h' b' hH' hrest
  refine hQ _ h' b' ⟨hH', rfl, ?_, ?_⟩
  · intro id' hid
    funext w
    refine page_congr (by rw [dropTable_leaf_other hid]) fun hv hu => ?_
    rw [hrest]
    rintro ⟨π, hp⟩
    exact (hH.of_leaf (maps_iff.mpr ⟨hv, hu, rfl⟩)).1 (.inl ⟨id, π, hp⟩)
  · rintro q _ hN _
    exact hrest q fun ⟨π, hp⟩ => hN ⟨id, π, hp⟩

theorem setRange_in {f g : ℕ → Pte} {v n w : ℕ} (h1 : v ≤ w) (h2 : w < v + n) :
    setRange f v n g w = g (w - v) :=
  if_pos ⟨h1, h2⟩

theorem setRange_out {f g : ℕ → Pte} {v n w : ℕ} (h : w < v ∨ v + n ≤ w) :
    setRange f v n g w = f w :=
  if_neg (by omega)

/-- `uvmunmap` with the first page by its number. -/
theorem uvmunmap_vpn {doFree : Bool} (hH : Holds L G h)
    (hroot : G.node id .root = some pt) (hva : va = v * pgSize) (hmax : v + n ≤ maxVpn)
    (hU : ∀ w, v ≤ w → w < v + n → Unmappable doFree (G.leaf id w))
    (hQ : ∀ G' h' b', Unmapped L id v n G h G' h' → Q () h' b') :
    Spec L E Q (uvmunmap L pt va n doFree) h b := by
  subst hva
  have hdiv : v * pgSize / pgSize = v := Nat.mul_div_cancel v (by decide)
  refine uvmunmap_spec hH hroot (Nat.mul_mod_left v pgSize) ?_ ?_ ?_
  · rw [hdiv]
    exact hmax
  · rw [hdiv]
    exact hU
  · rw [hdiv]
    exact fun G' h' b' hu _ => hQ G' h' b' hu

/-- **`proc_freepagetable`** with the size of the table. -/
theorem procFreepagetable_spec (hH : Holds L G h)
    (hroot : G.node id .root = some pt) (hl : UserLeaves (G.leaf id) (pageCount sz))
    (hQ : ∀ G' h' b', Freed L id G h G' h' → Q () h' b') :
    Spec L E Q (procFreepagetable L pt sz) h b := by
  have h1 := tfVpn_eq
  have h2 := tpVpn_eq
  have h3 := maxVpn_eq
  have hbound := hl.bound
  unfold procFreepagetable
  refine wp_seq (uvmunmap_vpn (v := tpVpn) hH hroot (by decide) (by omega) ?_ ?_)
  · intro w hw1 hw2
    obtain rfl : w = tpVpn := by omega
    exact hl.trampoline
  intro G1 h1' b1 hu1
  refine wp_seq
    (uvmunmap_vpn (v := tfVpn) hu1.holds ((hu1.frame.root id).trans hroot) (by decide) (by omega)
    ?_ ?_)
  · intro w hw1 hw2
    obtain rfl : w = tfVpn := by omega
    rw [hu1.leaf, setRange_out (by omega)]
    exact hl.trapframe
  intro G2 h2' b2 hu2
  have hleaf2 : ∀ w, G2.leaf id w = if w = tfVpn ∨ w = tpVpn then .zero else G.leaf id w := by
    intro w
    rw [hu2.leaf, hu1.leaf]
    unfold setRange
    split_ifs <;> first | rfl | omega
  have hroot2 : G2.node id .root = some pt :=
    (hu2.frame.root id).trans ((hu1.frame.root id).trans hroot)
  unfold uvmfree
  split
  · refine wp_seq (uvmunmap_vpn (v := 0) (n := pageCount sz) hu2.holds hroot2 rfl (by omega) ?_ ?_)
    · intro w _ hw2
      rw [hleaf2]
      split_ifs
      · exact nofun
      · exact hl.user w (by omega)
    intro G3 h3' b3 hu3
    refine freewalk_freed hu3.holds ((hu3.frame.root id).trans hroot2) ?_ ?_
    · intro w
      rw [hu3.leaf]
      by_cases hw : w < pageCount sz
      · rw [setRange_in (Nat.zero_le _) (by omega)]
        rfl
      · rw [setRange_out (by omega), hleaf2]
        split_ifs with hk
        · rfl
        · exact hl.above w (by omega) (fun hx => hk (.inl hx)) fun hx => hk (.inr hx)
    · intro G' h' b' hf
      exact hQ G' h' b' (.of_unmapped hu1 (.of_unmapped hu2 (.of_unmapped hu3 hf)))
  · rename_i hsz
    have hsz : sz = 0 := by omega
    subst hsz
    refine freewalk_freed hu2.holds hroot2 ?_ ?_
    · intro w
      rw [hleaf2]
      split_ifs with hk
      · rfl
      · exact hl.above w (Nat.zero_le _) (fun hx => hk (.inl hx)) fun hx => hk (.inr hx)
    · intro G' h' b' hf
      exact hQ G' h' b' (.of_unmapped hu1 (.of_unmapped hu2 hf))

/-- The count of a mapped page is that of its references. -/
theorem Holds.refs_one (hH : Holds L G h) (hm : (G.leaf id v).maps p = true) {d : PageData}
    (hd : h p = some (1, d)) : G.refs p = 1 := by
  have hc := hH.cell_leaf hm
  rw [hd] at hc
  exact (congrArg Prod.fst (Option.some.inj hc)).symm

/-- Two heaps with the same forest that agree on what the first one holds are the same. -/
theorem Holds.heap_eq (hH : Holds L G h) (hH' : Holds L G h')
    (hcell : ∀ p, h p ≠ none → ¬ G.Node p → h' p = h p) : h' = h := by
  funext p
  by_cases hN : G.Node p
  · obtain ⟨id, π, hp⟩ := hN
    rw [hH'.table id π p hp, hH.table id π p hp]
  · by_cases hp : h p = none
    · have hc := hH'.user p (hH.not_kern_of_none hp)
      rw [hH.refs_of_none hp] at hc
      rw [hp]
      exact hc.elim And.right fun hx => absurd hx.1 (Nat.lt_irrefl 0)
    · exact hcell p hp hN

/-! ## An image under construction -/

/-- Table `id` with root `pt` has user pages below page `n`. The rest is as in `G₀`, `h₀`. -/
structure Image (L : Layout) (id : Tid) (G₀ : Forest) (h₀ : PageHeap) (pt n : ℕ) (G : Forest)
    (h : PageHeap) :
    Prop where
  base : Holds L G₀ h₀
  new : G₀.node id .root = none
  holds : Holds L G h
  root : G.node id .root = some pt
  node : ∀ id', id' ≠ id → G.node id' = G₀.node id'
  leaf : ∀ id', id' ≠ id → G.leaf id' = G₀.leaf id'
  priv : G.priv = G₀.priv
  keeps : Keeps G₀ h₀ G h
  /-- The pages it maps are new and its own. -/
  mine : ∀ v p, (G.leaf id v).maps p = true → h₀ p = none ∧ ∃ d, h p = some (1, d)
  leaves : UserLeaves (G.leaf id) n

namespace Image

section

variable (hI : Image L id G₀ h₀ pt n G h)

include hI

theorem new_node (π : Path) : G₀.node id π = none := by
  cases π with
  | root => exact hI.new
  | mid i => exact hI.base.mid_up _ i hI.new
  | bot i j => exact hI.base.bot_up _ i j (hI.base.mid_up _ i hI.new)

theorem new_leaf : G₀.leaf id = fun _ => .zero :=
  funext fun _ => hI.base.toShape.leaf_zero (hI.new_node _)

/-- A node of the old tables is one still. -/
theorem old_node (hp : G₀.Node p) : G.Node p := by
  obtain ⟨id', π, hp⟩ := hp
  by_cases hid : id' = id
  · rw [hid, hI.new_node] at hp
    cases hp
  · exact ⟨id', π, by rw [hI.node id' hid]; exact hp⟩

/-- What nobody holds now was nobody's before. -/
theorem none_before (hp : h p = none) : h₀ p = none := by
  by_contra h0
  by_cases hN : G₀.Node p
  · exact hI.holds.not_kern_of_none hp (.inl (hI.old_node hN))
  · exact h0 ((hI.keeps.cell p h0 hN).symm.trans hp)

theorem dropTable_eq : G.dropTable id = G₀ := by
  have hn : (G.dropTable id).node = G₀.node := by
    funext id'
    by_cases hid : id' = id
    · rw [hid, dropTable_node_same]
      exact funext fun π => (hI.new_node π).symm
    · rw [dropTable_node_other hid, hI.node id' hid]
  have hl : (G.dropTable id).leaf = G₀.leaf := by
    funext id'
    by_cases hid : id' = id
    · rw [hid, dropTable_leaf_same, hI.new_leaf]
    · rw [dropTable_leaf_other hid, hI.leaf id' hid]
  have hp : (G.dropTable id).priv = G₀.priv := hI.priv
  cases G₀
  cases hG : G.dropTable id
  rw [hG] at hn hl hp
  cases hn
  cases hl
  cases hp
  rfl

/-- **Back to the start.** -/
theorem heap_eq (hf : Freed L id G h G' h') : h' = h₀ := by
  have hH' : Holds L G₀ h' := by
    have := hf.holds
    rwa [hf.forest, hI.dropTable_eq] at this
  refine hI.base.heap_eq hH' fun p hp hN => ?_
  have hc := hI.keeps.cell p hp hN
  rw [hf.cell p (by rw [hc]; exact hp) (fun hN' => (hI.keeps.fresh p hN').elim hN hp) ?_, hc]
  intro v
  rw [Bool.eq_false_iff]
  exact fun hm => hp (hI.mine v p hm).1

/-- The memory of the other tables. -/
theorem page (hid : id' ≠ id) : G.page h id' = G₀.page h₀ id' := by
  funext v
  refine page_congr (by rw [hI.leaf id' hid]) ?_
  intro hv hu
  obtain ⟨hk, hpos, hc⟩ := hI.base.of_leaf (maps_iff.mpr ⟨hv, hu, rfl⟩)
  rw [hI.keeps.cell _ (hc.held hpos) fun hN => hk (.inl hN)]

/-- A step that adds to the table. -/
theorem step (hH' : Holds L G' h') (hf : Frame {id} G h G' h') (hk : Keeps G h G' h')
    (hnew : ∀ v p, (G'.leaf id v).maps p = true →
      (G.leaf id v).maps p = true ∨ h p = none ∧ ∃ d, h' p = some (1, d))
    (hl : UserLeaves (G'.leaf id) m) : Image L id G₀ h₀ pt m G' h' where
  base := hI.base
  new := hI.new
  holds := hH'
  root := (hf.root id).trans hI.root
  node id' hid := (hf.node id' hid).trans (hI.node id' hid)
  leaf id' hid := (hf.leaf id' hid).trans (hI.leaf id' hid)
  priv := hf.priv.trans hI.priv
  keeps := hI.keeps.trans hk
  mine v p hm := by
    rcases hnew v p hm with hold | ⟨hn, hown⟩
    · obtain ⟨h0, d, hd⟩ := hI.mine v p hold
      refine ⟨h0, d, ?_⟩
      rw [hk.cell p (by simp [hd]) fun hN => (hI.holds.of_leaf hold).1 (.inl hN), hd]
    · exact ⟨hI.none_before hn, hown⟩
  leaves := hl

end

/-- A step that unmaps pages. -/
theorem unmap {k : ℕ} (hI : Image L id G₀ h₀ pt n G h) (hu : Unmapped L id v k G h G' h')
    (hl : UserLeaves (G'.leaf id) m) : Image L id G₀ h₀ pt m G' h' where
  base := hI.base
  new := hI.new
  holds := hu.holds
  root := (hu.frame.root id).trans hI.root
  node id' hid := (hu.frame.node id' hid).trans (hI.node id' hid)
  leaf id' hid := (hu.frame.leaf id' hid).trans (hI.leaf id' hid)
  priv := hu.frame.priv.trans hI.priv
  keeps := by
    refine ⟨fun p hp hN => ?_, fun p ⟨id', π, hp⟩ =>
      hI.keeps.fresh p ⟨id', π, by rwa [hu.node] at hp⟩⟩
    have hc := hI.keeps.cell p hp hN
    rw [hu.cell p (by rw [hc]; exact hp) (fun hN' => (hI.keeps.fresh p hN').elim hN hp) ?_, hc]
    intro w _ _
    rw [Bool.eq_false_iff]
    exact fun hm => hp (hI.mine w p hm).1
  mine w p hm := by
    have hw : ¬ (v ≤ w ∧ w < v + k) := by
      rintro ⟨h1, h2⟩
      rw [hu.leaf, setRange_in h1 h2] at hm
      cases hm
    rw [hu.leaf, setRange_out (by omega)] at hm
    obtain ⟨h0, d, hd⟩ := hI.mine w p hm
    refine ⟨h0, d, ?_⟩
    rw [hu.cell p (by simp [hd]) (fun hN => (hI.holds.of_leaf hm).1 (.inl hN)) ?_, hd]
    intro w' h1 h2
    rw [Bool.eq_false_iff]
    intro hm'
    exact hw ((hI.holds.unique hm hm' (hI.holds.refs_one hm hd)).2 ▸ ⟨h1, h2⟩)
  leaves := hl

/-- The table is given back. -/
theorem procFreepagetable (hI : Image L id G₀ h₀ pt (pageCount sz) G h)
    (hQ : ∀ b', Q () h₀ b') : Spec L E Q (procFreepagetable L pt sz) h b := by
  refine procFreepagetable_spec hI.holds hI.root hI.leaves ?_
  intro G' h' b' hf
  rw [hI.heap_eq hf]
  exact hQ b'

theorem freewalk (hI : Image L id G₀ h₀ pt n G h)
    (hl : ∀ v, (G.leaf id v).v = false) (hQ : ∀ b', Q () h₀ b') :
    Spec L E Q (freewalk L 3 pt) h b := by
  refine freewalk_freed hI.holds hI.root hl ?_
  intro G' h' b' hf
  rw [hI.heap_eq hf]
  exact hQ b'

end Image

theorem execBad_spec {Q : Post (Option Process.ExecResult)}
    (hI : Image L id G₀ h₀ pt (pageCount sz) G h)
    (hQ : ∀ b', Q none h₀ b') : Spec L E Q (execBad L pt sz) h b :=
  wp_seq (hI.procFreepagetable hQ)

end Xv6.Vm
