/-
  `uvmunmap` and `uvmdealloc`.
-/
import Xv6.Vm.MapSpec

namespace Xv6.Vm

open Lib Function

variable {L : Layout} {E : Panic → Prop} {G G' G'' : Forest} {h h' h'' : PageHeap} {id : Tid}
  {p q t v va pa pt n b b' b'' : ℕ} {e : Pte} {perm : Flags}

/-- `n` pages of table `id` from page `v` on are unmapped. -/
structure Unmapped (L : Layout) (id : Tid) (v n : ℕ) (G : Forest) (h : PageHeap) (G' : Forest)
    (h' : PageHeap) : Prop where
  holds : Holds L G' h'
  frame : Frame {id} G h G' h'
  node : G'.node = G.node
  leaf : G'.leaf id = setRange (G.leaf id) v n fun _ => .zero
  page : ∀ w, G'.page h' id w = if v ≤ w ∧ w < v + n then fun _ => 0 else G.page h id w
  cell : ∀ p, h p ≠ none → ¬ G.Node p → (∀ w, v ≤ w → w < v + n → (G.leaf id w).maps p = false) →
    h' p = h p

theorem Unmapped.refl (hH : Holds L G h) (id : Tid) (v : ℕ) : Unmapped L id v 0 G h G h where
  holds := hH
  frame := .refl _ G h
  node := rfl
  leaf := (setRange_zero _ _ _).symm
  page w := by rw [if_neg (by omega)]
  cell _ _ _ _ := rfl

theorem Unmapped.snoc (h1 : Unmapped L id v n G h G' h')
    (h2 : Unmapped L id (v + n) 1 G' h' G'' h'') : Unmapped L id v (n + 1) G h G'' h'' where
  holds := h2.holds
  frame := h1.frame.trans h2.frame
  node := h2.node.trans h1.node
  leaf := by
    rw [h2.leaf, h1.leaf]
    funext w
    unfold setRange
    split_ifs <;> first | rfl | omega
  page w := by
    rw [h2.page w, h1.page w]
    split_ifs <;> first | rfl | omega
  cell p hp hN hm := by
    have hc := h1.cell p hp hN fun w h1 h2 => hm w h1 (by omega)
    rw [h2.cell p (by rw [hc]; exact hp) ?_ ?_, hc]
    · rintro ⟨id', π, hp'⟩
      rw [h1.node] at hp'
      exact hN ⟨id', π, hp'⟩
    · intro w hw1 hw2
      rw [h1.leaf]
      unfold setRange
      rw [if_neg (by omega)]
      exact hm w (by omega) (by omega)

/-- A leaf of no interest to user mode is cleared. -/
theorem Unmapped.of_built (hb : Built L id G h (G.setLeaf id v .zero) h')
    (hold : ∀ q, (G.leaf id v).maps q = false) :
    Unmapped L id v 1 G h (G.setLeaf id v .zero) h' where
  holds := hb.holds
  frame := hb.frame
  node := rfl
  leaf := by
    rw [Forest.setLeaf_leaf, ← setRange_succ, setRange_zero]
  page w := by
    rw [hb.page]
    split_ifs with hw
    · obtain rfl : w = v := by omega
      exact page_unmapped hold
    · rfl
  cell p hp hN _ := hb.keeps.cell p hp hN

/-- The page of a leaf is released, then the leaf is cleared. -/
theorem Unmapped.of_unmap (hH : Holds L G h) (hv : v < maxVpn)
    (ht : G.node id (botOf v) = some t) (hm : (G.leaf id v).maps p = true) :
    Unmapped L id v 1 G h (G.setLeaf id v .zero)
      (Holds.setEntry (h.set p (lessRef (h p))) t (G.entries id (botOf v)) (ix0 v) .zero) := by
  have hH' := hH.unmap hv ht hm
  have hframe := Frame.of_setLeaf hH hH' ht (fun r hr => by
      rw [Holds.setEntry_ne _ _ _ _ hr]
      by_cases hrp : r = p
      · rw [hrp, Heap.set_same]
        exact .inr rfl
      · rw [Heap.set_ne _ _ hrp]
        exact .inl rfl)
    (fun r hr => by
      have hrt : r ≠ t := by
        rintro rfl
        exact hH.apart r ⟨id, _, ht⟩ hr
      have hrp : r ≠ p := by
        rintro rfl
        exact (hH.of_leaf hm).1 (.inr hr)
      rw [Holds.setEntry_ne _ _ _ _ hrt, Heap.set_ne _ _ hrp])
  refine ⟨hH', hframe.1, rfl, ?_, ?_, ?_⟩
  · rw [Forest.setLeaf_leaf, ← setRange_succ, setRange_zero]
  · intro w
    split_ifs with hw
    · obtain rfl : w = v := by omega
      exact page_unmapped fun q => by rw [Forest.setLeaf_same]; rfl
    · exact hframe.2 w (by omega)
  · intro r _ hN hm'
    rw [Holds.setEntry_ne, Heap.set_ne]
    · rintro rfl
      rw [hm' v (Nat.le_refl v) (Nat.lt_succ_self v)] at hm
      cases hm
    · rintro rfl
      exact hN ⟨id, _, ht⟩

theorem kfree_user {Q : Post Unit} (hH : Holds L G h) (hm : (G.leaf id v).maps p = true)
    (hQ : ∀ b', b ≤ b' → Q () (h.set p (lessRef (h p))) b') : Spec L E Q (kfree L p) h b := by
  obtain ⟨_, hpos, hc⟩ := hH.of_leaf hm
  obtain ⟨f, hf⟩ := hc.bytes hpos
  obtain ⟨n, hn⟩ := Nat.exists_eq_succ_of_ne_zero (Nat.ne_of_gt hpos)
  exact kfree_spec (hH.managed_of_leaf hm) (hf.trans (by rw [hn])) hQ

/-- The leaves that `uvmunmap` meets: with `do_free` user pages, without it kernel mappings. -/
def Unmappable (doFree : Bool) (e : Pte) : Prop :=
  e.v = true → e.u = doFree ∧ e.toFlags ≠ {}

theorem unmapPage_spec {Q : Post Unit} {doFree : Bool} (hH : Holds L G h)
    (hroot : G.node id .root = some pt) (hva : va < maxVa)
    (hU : Unmappable doFree (G.leaf id (va / pgSize)))
    (hQ : ∀ G' h' b', Unmapped L id (va / pgSize) 1 G h G' h' → b ≤ b' → Q () h' b') :
    Spec L E Q (unmapPage L pt doFree va) h b := by
  refine wp_seq (walk_find hH hroot hva ?_ ?_)
  · -- no table: there is nothing to clear
    intro hn
    have hz := hH.toShape.leaf_zero hn
    refine hQ G h b ⟨hH, .refl _ G h, rfl, ?_, ?_, fun _ _ _ _ => rfl⟩ (Nat.le_refl b)
    · rw [← setRange_succ, setRange_zero, ← hz, update_eq_self]
    · intro w
      split_ifs with hw
      · obtain rfl : w = va / pgSize := by omega
        exact page_unmapped fun q => by rw [hz]; rfl
      · rfl
  · intro t ht
    have hv := vpn_lt hva
    have htab := hH.table id _ t ht
    refine wp_seq (readPte_spec htab ?_)
    rw [Shape.entry hv]
    by_cases hval : (G.leaf id (va / pgSize)).v = true
    · obtain ⟨hu, hfl⟩ := hU hval
      rw [if_neg (by simp [hval]), if_neg hfl]
      cases doFree with
      | false =>
        have hold : ∀ q, (G.leaf id (va / pgSize)).maps q = false := by
          intro q
          unfold Pte.maps
          rw [hu, Bool.and_false]
          rfl
        have hb := Built.setLeaf (e := .zero) hH hv ht hold maps_zero
        rw [if_neg (by simp)]
        exact setPte_spec htab (hQ _ _ b (.of_built hb hold) (Nat.le_refl b))
      | true =>
        have hm : (G.leaf id (va / pgSize)).maps (G.leaf id (va / pgSize)).ppn = true :=
          maps_iff.mpr ⟨hval, hu, rfl⟩
        have hpt : t ≠ (G.leaf id (va / pgSize)).ppn := by
          intro heq
          exact (hH.of_leaf hm).1 (heq ▸ .inl ⟨id, _, ht⟩)
        rw [if_pos rfl]
        refine wp_seq (kfree_user hH hm ?_)
        intro b' hb'
        exact setPte_spec ((Heap.set_ne h _ hpt).trans htab) (hQ _ _ b' (.of_unmap hH hv ht hm) hb')
    · have hold : ∀ q, (G.leaf id (va / pgSize)).maps q = false := by
        intro q
        unfold Pte.maps
        rw [Bool.eq_false_iff.mpr hval]
        rfl
      have hb := Built.setLeaf (e := .zero) hH hv ht hold maps_zero
      rw [if_pos (Bool.eq_false_iff.mpr hval)]
      exact setPte_spec htab (hQ _ _ b (.of_built hb hold) (Nat.le_refl b))

/-- **`uvmunmap`**, of user pages or of kernel mappings. -/
theorem uvmunmap_spec {Q : Post Unit} {doFree : Bool} (hH : Holds L G h)
    (hroot : G.node id .root = some pt) (hva : va % pgSize = 0) (hlt : va / pgSize + n ≤ maxVpn)
    (hU : ∀ w, va / pgSize ≤ w → w < va / pgSize + n → Unmappable doFree (G.leaf id w))
    (hQ : ∀ G' h' b', Unmapped L id (va / pgSize) n G h G' h' → b ≤ b' → Q () h' b') :
    Spec L E Q (uvmunmap L pt va n doFree) h b := by
  unfold uvmunmap
  rw [if_neg (by simp [hva])]
  have hdiv : ∀ j, (va + j * pgSize) / pgSize = va / pgSize + j := fun j =>
    Nat.add_mul_div_right va j (by decide)
  refine wp_mono (Q := fun _ h' b' => ∃ G', Unmapped L id (va / pgSize) (0 + n) G h G' h' ∧ b ≤ b')
    ?_ (wp_times (I := fun j h' b' => ∃ G', Unmapped L id (va / pgSize) j G h G' h' ∧ b ≤ b')
      ⟨G, .refl hH id _, Nat.le_refl b⟩ ?_)
  · rintro _ h' b' ⟨G', hu, hb⟩
    rw [Nat.zero_add] at hu
    exact hQ G' h' b' hu hb
  · rintro j h' b' _ hj ⟨G', hu, hb⟩
    refine unmapPage_spec hu.holds (hu.frame.root id ▸ hroot) ?_ ?_ ?_
    · have h1 : maxVpn = 67108864 := by decide
      have h2 : maxVa = 67108864 * 4096 := by decide
      have h3 : pgSize = 4096 := rfl
      rw [h3] at hlt ⊢
      omega
    · rw [hdiv, hu.leaf]
      unfold setRange
      rw [if_neg (by omega)]
      exact hU _ (by omega) (by omega)
    · intro G'' h'' b'' hu' hb'
      rw [hdiv] at hu'
      exact ⟨G'', hu.snoc hu', Nat.le_trans hb hb'⟩

/-- **`uvmdealloc`.** -/
theorem uvmdealloc_spec {Q : Post ℕ} {oldsz newsz : ℕ} (hH : Holds L G h)
    (hroot : G.node id .root = some pt) (hmax : oldsz ≤ maxVa)
    (hU : ∀ w, pageCount newsz ≤ w → w < pageCount oldsz → Unmappable true (G.leaf id w))
    (hQ : ∀ G' h' b', Unmapped L id (pageCount newsz) (pageCount oldsz - pageCount newsz)
      G h G' h' →
      b ≤ b' → Q (if oldsz ≤ newsz then oldsz else newsz) h' b') :
    Spec L E Q (uvmdealloc L pt oldsz newsz) h b := by
  have hnone : pageCount oldsz - pageCount newsz = 0 →
      Q (if oldsz ≤ newsz then oldsz else newsz) h b := by
    intro hn
    refine hQ G h b ?_ (Nat.le_refl b)
    rw [hn]
    exact .refl hH id _
  unfold uvmdealloc
  by_cases hle : oldsz ≤ newsz
  · rw [if_pos hle] at hnone ⊢
    exact hnone (Nat.sub_eq_zero_of_le (pageCount_mono hle))
  · rw [if_neg hle] at hnone hQ ⊢
    have hdiff : (pgRoundUp oldsz - pgRoundUp newsz) / pgSize = pageCount oldsz -
        pageCount newsz := by
      rw [pgRoundUp_eq, pgRoundUp_eq, ← Nat.sub_mul, Nat.mul_div_cancel _ (by decide)]
    split
    · refine wp_seq (uvmunmap_spec hH hroot (pgRoundUp_mod newsz) ?_ ?_ ?_)
      · have hcount := pageCount_mono hmax
        rw [show pageCount maxVa = maxVpn by decide] at hcount
        rw [hdiff]
        have hx : pgRoundUp newsz / pgSize = pageCount newsz := rfl
        have := pageCount_mono (Nat.le_of_lt (Nat.lt_of_not_le hle))
        omega
      · intro w h1 h2
        rw [hdiff] at h2
        have hx : pgRoundUp newsz / pgSize = pageCount newsz := rfl
        have := pageCount_mono (Nat.le_of_lt (Nat.lt_of_not_le hle))
        exact hU w h1 (by omega)
      · intro G' h' b' hu hb
        rw [hdiff] at hu
        exact hQ G' h' b' hu hb
    · rename_i hlt
      refine hnone ?_
      rw [pgRoundUp_eq, pgRoundUp_eq] at hlt
      have := Nat.le_of_mul_le_mul_right (Nat.le_of_not_lt hlt) (by decide : 0 < pgSize)
      omega

end Xv6.Vm
