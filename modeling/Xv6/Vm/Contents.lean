/-
  The contents of user memory, and what a change of one table leaves alone.
-/
import Xv6.Vm.Walk

namespace Xv6.Vm

open Lib

/-- The bytes of virtual page `v` in table `id`; zeros where user mode has no page. -/
def Forest.page (G : Forest) (h : PageHeap) (id : Tid) (v : ℕ) : ℕ → UInt8 :=
  if (G.leaf id v).v ∧ (G.leaf id v).u then
    match (h (G.leaf id v).ppn).val with
    | some (.bytes f) => f
    | _ => fun _ => 0
  else fun _ => 0

variable {L : Layout} {G G' G'' : Forest} {h h' h'' : PageHeap} {id id' : Tid} 
  {p q t v v' b b' : ℕ} {e : Pte} {I : Set Tid} {f : ℕ → UInt8}

theorem page_congr (hl : G'.leaf id v = G.leaf id v)
    (hv : (G.leaf id v).v = true → (G.leaf id v).u = true →
      (h' (G.leaf id v).ppn).val = (h (G.leaf id v).ppn).val) :
        G'.page h' id v = G.page h id v := by
  unfold Forest.page
  rw [hl]
  split
  · rename_i hvu
    rw [hv hvu.1 hvu.2]
  · rfl

theorem page_unmapped (hm : ∀ q, (G.leaf id v).maps q = false) : G.page h id v = fun _ => 0 := by
  unfold Forest.page
  rw [if_neg]
  rintro ⟨hv, hu⟩
  have := hm (G.leaf id v).ppn
  rw [maps_iff.mpr ⟨hv, hu, rfl⟩] at this
  cases this

theorem page_mapped {n : ℕ} (hm : (G.leaf id v).maps p = true) (hp : h p = some (n, .bytes f)) :
    G.page h id v = f := by
  obtain ⟨hv, hu, rfl⟩ := maps_iff.mp hm
  unfold Forest.page
  rw [if_pos ⟨hv, hu⟩, hp]
  rfl

/-- The cell of a page that user mode can see. -/
theorem Holds.cell_leaf (hH : Holds L G h) (hm : (G.leaf id v).maps p = true) :
    h p = some (G.refs p, .bytes (G.page h id v)) := by
  obtain ⟨_, hpos, hc⟩ := hH.of_leaf hm
  obtain ⟨f, hf⟩ := hc.bytes hpos
  rw [page_mapped hm hf, hf]

theorem Holds.own_leaf (hH : Holds L G h) (hm : (G.leaf id v).maps p = true)
    (hw : (G.leaf id v).w = true) : h p = some (1, .bytes (G.page h id v)) := by
  rw [hH.cell_leaf hm, hH.writable id v p hm hw]

/-- From `G`, `h` to `G'`, `h'` only the tables `I` have changed. -/
structure Frame (I : Set Tid) (G : Forest) (h : PageHeap) (G' : Forest) (h' : PageHeap) : Prop where
  node : ∀ id, id ∉ I → G'.node id = G.node id
  leaf : ∀ id, id ∉ I → G'.leaf id = G.leaf id
  root : ∀ id, G'.node id .root = G.node id .root
  priv : G'.priv = G.priv
  cell : ∀ p ∈ G.priv, h' p = h p
  page : ∀ id, id ∉ I → G'.page h' id = G.page h id

namespace Frame

theorem refl (I : Set Tid) (G : Forest) (h : PageHeap) : Frame I G h G h :=
  ⟨fun _ _ => rfl, fun _ _ => rfl, fun _ => rfl, rfl, fun _ _ => rfl, fun _ _ => rfl⟩

theorem trans (h1 : Frame I G h G' h') (h2 : Frame I G' h' G'' h'') : Frame I G h G'' h'' where
  node id hid := (h2.node id hid).trans (h1.node id hid)
  leaf id hid := (h2.leaf id hid).trans (h1.leaf id hid)
  root id := (h2.root id).trans (h1.root id)
  priv := h2.priv.trans h1.priv
  cell p hp := (h2.cell p (h1.priv ▸ hp)).trans (h1.cell p hp)
  page id hid := (h2.page id hid).trans (h1.page id hid)

end Frame

theorem Grown.page (hg : Grown L id v G h b G' h' b') (hH : Holds L G h) :
    G'.page h' = G.page h := by
  funext id' w
  refine page_congr (by rw [hg.leaf]) ?_
  intro hv hu
  have hm : (G.leaf id' w).maps (G.leaf id' w).ppn = true := maps_iff.mpr ⟨hv, hu, rfl⟩
  obtain ⟨hk, hpos, hc⟩ := hH.of_leaf hm
  rw [hg.cell_of_held (hc.held hpos) fun hN => hk (.inl hN)]

theorem Grown.frame (hg : Grown L id v G h b G' h' b') (hH : Holds L G h) :
    Frame {id} G h G' h' where
  node id' hid := by
    funext π
    exact hg.other id' π fun hx => hid hx.1
  leaf id' _ := by rw [hg.leaf]
  root := hg.root
  priv := hg.priv
  cell p hp := hg.cell_priv hH hp
  page id' _ := by rw [hg.page hH]

/-! ## Moves -/

theorem page_set {c : Cell PageData} (hq : ∀ id v, (G.leaf id v).maps q = false) :
    G.page (h.set q c) = G.page h := by
  funext id v
  refine page_congr rfl ?_
  intro hv hu
  rw [Heap.set_ne]
  rintro hpp
  have := hq id v
  rw [maps_iff.mpr ⟨hv, hu, hpp⟩] at this
  cases this

theorem val_lessRef {c : Cell PageData} (hc : lessRef c ≠ none) : (lessRef c).val = c.val := by
  rcases c with _ | ⟨_ | _ | n, d⟩
  · exact absurd rfl hc
  · exact absurd rfl hc
  · exact absurd rfl hc
  · rfl

/-- A page that keeps its contents, or loses a reference and is still mapped. -/
theorem Holds.page_keep (hH : Holds L G' h') (hl : G'.leaf id v = G.leaf id v)
    (hc : (h' (G.leaf id v).ppn).val = (h (G.leaf id v).ppn).val ∨
      h' (G.leaf id v).ppn = lessRef (h (G.leaf id v).ppn)) : G'.page h' id v = G.page h id v := by
  refine page_congr hl ?_
  intro hv hu
  rcases hc with hc | hc
  · exact hc
  · have hm : (G'.leaf id v).maps (G.leaf id v).ppn = true := by
      rw [hl]
      exact maps_iff.mpr ⟨hv, hu, rfl⟩
    obtain ⟨_, hpos, hcell⟩ := hH.of_leaf hm
    have hheld := hcell.held hpos
    rw [hc] at hheld ⊢
    exact val_lessRef hheld

theorem page_setEntry (hH : Holds L G h) (ht : G.Node t) {tb : Table} {i : Fin 512} {e' : Pte}
    (hne : ¬ (id' = id ∧ v' = v)) :
    (G.setLeaf id v e).page (Holds.setEntry h t tb i e') id' v' = G.page h id' v' := by
  refine page_congr (Forest.setLeaf_other hne) ?_
  intro hv hu
  rw [Holds.setEntry_ne]
  rintro rfl
  exact (hH.of_leaf (maps_iff.mpr ⟨hv, hu, rfl⟩)).1 (.inl ht)

/-- A move that sets one leaf of table `id` and otherwise keeps the contents of the pages that
    are mapped. -/
theorem Frame.of_setLeaf (hH : Holds L G h) (hH' : Holds L (G.setLeaf id v e) h')
    (ht : G.node id (botOf v) = some t)
    (hc : ∀ r, r ≠ t → (h' r).val = (h r).val ∨ h' r = lessRef (h r))
    (hp : ∀ r ∈ G.priv, h' r = h r) : Frame {id} G h (G.setLeaf id v e) h' ∧
      ∀ v', v' ≠ v → (G.setLeaf id v e).page h' id v' = G.page h id v' := by
  have hkeep : ∀ id' v', ¬ (id' = id ∧ v' = v) →
      (G.setLeaf id v e).page h' id' v' = G.page h id' v' := by
    intro id' v' hne
    by_cases hvu : (G.leaf id' v').v = true ∧ (G.leaf id' v').u = true
    · refine hH'.page_keep (Forest.setLeaf_other hne) (hc _ ?_)
      rintro rfl
      exact (hH.of_leaf (maps_iff.mpr ⟨hvu.1, hvu.2, rfl⟩)).1 (.inl ⟨id, _, ht⟩)
    · exact page_congr (Forest.setLeaf_other hne) fun h1 h2 => absurd ⟨h1, h2⟩ hvu
  refine ⟨⟨fun _ _ => rfl, ?_, fun _ => rfl, rfl, hp, ?_⟩, ?_⟩
  · intro id' hid
    exact Forest.setLeaf_id hid
  · intro id' hid
    funext v'
    exact hkeep id' v' fun hx => hid hx.1
  · intro v' hv'
    exact hkeep id v' fun hx => hv' hx.2

end Xv6.Vm
