/-
  `walk` and `mappages`.

  `walk` without allocation leaves everything as it is. With allocation the table grows: `Grown`
  says that nothing else changes, and accounts for the pages taken.
-/
import Xv6.Vm.Ghost

namespace Xv6.Vm

open Lib Forest

/-! ## Growing a table -/

/-- How many of the nodes `S` a table has. -/
def built (S : Finset Path) (G : Forest) (id : Tid) : ℕ :=
  (S.filter fun π => (G.node id π).isSome).card

/-- The nodes that `walk` visits for page `v`. -/
def onWay (v : ℕ) (π : Path) : Prop := π = .mid (ix2 v) ∨ π = botOf v

variable {L : Layout} {E : Panic → Prop} {G G' G'' : Forest} {h h' h'' : PageHeap} {id id' : Tid}
  {p q t v va pt b b' b'' : ℕ}
  {e : Pte}

/-- From `G`, `h`, `b` to `G'`, `h'`, `b'` table `id` has got nodes on the way to page `v`. -/
structure Grown (L : Layout) (id : Tid) (v : ℕ) (G : Forest) (h : PageHeap) (b : ℕ)
    (G' : Forest) (h' : PageHeap) (b' : ℕ) : Prop where
  holds : Holds L G' h'
  node : ∀ id' π p, G.node id' π = some p → G'.node id' π = some p
  other : ∀ id' π, ¬ (id' = id ∧ onWay v π) → G'.node id' π = G.node id' π
  leaf : G'.leaf = G.leaf
  priv : G'.priv = G.priv
  cell : ∀ p, ¬ G'.Node p → h' p = h p
  fresh : ∀ p, G'.Node p → G.Node p ∨ h p = none
  paid : ∀ S : Finset Path, (∀ π, onWay v π → π ∈ S) →
    built S G' id + b' = built S G id + b

namespace Grown

theorem refl (hH : Holds L G h) (id : Tid) (v : ℕ) (b : ℕ) : Grown L id v G h b G h b :=
  ⟨hH, fun _ _ _ h => h, fun _ _ _ => rfl, rfl, rfl, fun _ _ => rfl, fun _ h => .inl h, fun _ _ =>
    rfl⟩

theorem trans (h1 : Grown L id v G h b G' h' b') (h2 : Grown L id v G' h' b' G'' h'' b'') :
    Grown L id v G h b G'' h'' b'' where
  holds := h2.holds
  node id' π p hp := h2.node id' π p (h1.node id' π p hp)
  other id' π hπ := (h2.other id' π hπ).trans (h1.other id' π hπ)
  leaf := h2.leaf.trans h1.leaf
  priv := h2.priv.trans h1.priv
  cell p hp := by
    have hp' : ¬ G'.Node p := fun ⟨id', π, hN⟩ => hp ⟨id', π, h2.node id' π p hN⟩
    exact (h2.cell p hp).trans (h1.cell p hp')
  fresh p hp := by
    by_cases hN : G'.Node p
    · exact h1.fresh p hN
    · rcases h2.fresh p hp with hN' | hn
      · exact absurd hN' hN
      · exact .inr ((h1.cell p hN).symm.trans hn)
  paid S hS := (h2.paid S hS).trans (h1.paid S hS)

/-- A page that was not free and not a node keeps its cell. -/
theorem cell_of_held (hg : Grown L id v G h b G' h' b') (hp : h p ≠ none) (hN : ¬ G.Node p) :
    h' p = h p :=
  hg.cell p fun hN' => (hg.fresh p hN').elim hN hp

theorem cell_priv (hg : Grown L id v G h b G' h' b') (hH : Holds L G h) (hp : p ∈ G.priv) :
    h' p = h p := by
  obtain ⟨d, hd⟩ := hH.own_of_kern (.inr hp)
  exact hg.cell_of_held (by simp [hd]) (fun hN => hH.apart p hN hp)

theorem root (hg : Grown L id v G h b G' h' b') (id' : Tid) :
    G'.node id' .root = G.node id' .root := by
  refine hg.other id' .root ?_
  rintro ⟨_, hw | hw⟩ <;> cases hw

/-- An unused page becomes the node `π`, which was missing. -/
theorem add {π0 π : Path} {k : Fin 512} (hH : Holds L G h) (hc : Path.Child π0 k π)
    (hπ : onWay v π) (ht : G.node id π0 = some t) (hn : G.node id π = none)
    (hq : q ∈ L.managed) (hfree : h q = none) (hb : 0 < b) :
    Grown L id v G h b (((G.addPriv q).setNode id π (some q)).dropPriv q)
      (Holds.setEntry (h.set q (some (1, .table fun _ => .zero))) t (G.entries id π0) k
        { v := true, ppn := q }) (b - 1) := by
  have hk := hH.not_kern_of_none hfree
  have hH1 := hH.addPriv (d := .table fun _ => .zero) hq hfree
  have hH2 := hH1.addNode hc ht hn (.inl rfl) (Heap.set_same h q _)
  have hnode : ∀ id' π', ¬ (id' = id ∧ π' = π) →
      (((G.addPriv q).setNode id π (some q)).dropPriv q).node id' π' = G.node id' π' := by
    intro id' π' hne
    rw [dropPriv_node, setNode_other hne]
    rfl
  have hnew : (((G.addPriv q).setNode id π (some q)).dropPriv q).node id π = some q := by
    rw [dropPriv_node, setNode_same]
  refine ⟨hH2, ?_, ?_, rfl, ?_, ?_, ?_, ?_⟩
  · intro id' π' p hp
    rw [hnode]
    · exact hp
    · rintro ⟨rfl, rfl⟩
      rw [hn] at hp
      cases hp
  · intro id' π' hne
    refine hnode id' π' ?_
    rintro ⟨hid, rfl⟩
    exact hne ⟨hid, hπ⟩
  · ext r
    rw [mem_dropPriv, setNode_priv, mem_addPriv]
    constructor
    · rintro ⟨hr, hrq⟩
      exact hr.resolve_left hrq
    · intro hr
      refine ⟨.inr hr, ?_⟩
      rintro rfl
      exact hk (.inr hr)
  · intro p hp
    have hpt : p ≠ t := by
      rintro rfl
      refine hp ⟨id, π0, ?_⟩
      rw [hnode]
      · exact ht
      · rintro ⟨_, rfl⟩
        cases hc
    have hpq : p ≠ q := by
      rintro rfl
      exact hp ⟨id, π, hnew⟩
    rw [Holds.setEntry_ne _ _ _ _ hpt, Heap.set_ne h _ hpq]
  · rintro p ⟨id', π', hp⟩
    by_cases hne : id' = id ∧ π' = π
    · rw [hne.1, hne.2, hnew] at hp
      rw [← Option.some.inj hp]
      exact .inr hfree
    · rw [hnode id' π' hne] at hp
      exact .inl ⟨id', π', hp⟩
  · intro S hS
    have hbuilt : built S (((G.addPriv q).setNode id π (some q)).dropPriv q) id = built S G id +
        1 := by
      unfold built
      rw [← Finset.card_insert_of_notMem (a := π) (by simp [hn])]
      congr 1
      ext π'
      simp only [Finset.mem_filter, Finset.mem_insert]
      by_cases hπ' : π' = π
      · subst hπ'
        simp [hnew, hS π' hπ]
      · simp only [hπ', false_or]
        rw [hnode id π' fun hx => hπ' hx.2]
    rw [hbuilt]
    omega

end Grown

/-! ## `walk` -/

section

variable {Q : Post (Option (ℕ × Fin 512))} {π0 π : Path} {k : Fin 512} {level : ℕ}

/-- One level of `walk` without allocation. -/
theorem walkFrom_find (hH : Holds L G h) (hc : Path.Child π0 k π) (hk : px (level + 1) va = k)
    (hp : G.node id π0 = some p) (hnone : G.node id π = none → Q none h b)
    (hsome : ∀ q, G.node id π = some q → Spec L E Q (walkFrom va false level q) h b) :
    Spec L E Q (walkFrom va false (level + 1) p) h b := by
  refine wp_seq (readPte_spec (hH.table id π0 p hp) ?_)
  rw [hk, entries_child hc]
  cases hn : G.node id π with
  | none => exact hnone hn
  | some q => exact hsome q hn

/-- One level of `walk` with allocation. -/
theorem walkFrom_alloc (hH : Holds L G h) (hc : Path.Child π0 k π) (hπ : onWay v π)
    (hk : px (level + 1) va = k) (hp : G.node id π0 = some p)
    (hfail : G.node id π = none → b = 0 → Q none h b)
    (hok : ∀ G' h' b' q, Grown L id v G h b G' h' b' → G'.node id π = some q →
      Spec L E Q (walkFrom va true level q) h' b') : Spec L E Q (walkFrom va true (level + 1) p)
        h b := by
  have hpk : G.Kern p := .inl ⟨id, π0, hp⟩
  refine wp_seq (readPte_spec (hH.table id π0 p hp) ?_)
  rw [hk, entries_child hc]
  cases hn : G.node id π with
  | some q => exact hok G h b q (.refl hH id v b) hn
  | none =>
    refine wp_seq (kalloc_spec (hfail hn) ?_)
    intro q hq hfree hserve
    have hpq : p ≠ q := by
      rintro rfl
      exact hH.not_kern_of_none hfree hpk
    have hg := Grown.add (v := v) hH hc hπ hp hn hq hfree hserve
    refine wp_seq (write_spec (Heap.set_same h q _) ?_)
    rw [Heap.set_set]
    have htab : h.set q (some (1, .table fun _ => .zero)) p =
        some (1, .table (G.entries id π0)) := by
      rw [Heap.set_ne h _ hpq]
      exact hH.table id π0 p hp
    refine wp_seq (setPte_spec htab (hok _ _ _ q hg ?_))
    rw [dropPriv_node, setNode_same]

variable (hH : Holds L G h) (hroot : G.node id .root = some pt) (hva : va < maxVa)

include hH hroot hva

theorem walk_find (hnone : G.node id (botOf (va / pgSize)) = none → Q none h b)
    (hsome : ∀ t, G.node id (botOf (va / pgSize)) = some t →
      Q (some (t, ix0 (va / pgSize))) h b) : Spec L E Q (walk pt va false) h b := by
  unfold walk
  rw [if_neg (Nat.not_le.mpr hva)]
  obtain ⟨h2, h1, h0⟩ := px_eq va
  refine walkFrom_find hH (.mid _) h2 hroot ?_ ?_
  · intro hn
    exact hnone (hH.bot_up id _ _ hn)
  · intro q hq
    refine walkFrom_find hH (.bot _ _) h1 hq hnone ?_
    intro t ht
    show Q (some (t, px 0 va)) h b
    rw [h0]
    exact hsome t ht

theorem walk_alloc
    (hfail : ∀ G' h' b', Grown L id (va / pgSize) G h b G' h' b' → b' = 0 →
      G'.node id (botOf (va / pgSize)) = none → Q none h' b')
    (hok : ∀ G' h' b' t, Grown L id (va / pgSize) G h b G' h' b' →
      G'.node id (botOf (va / pgSize)) = some t → Q (some (t, ix0 (va / pgSize))) h' b') :
    Spec L E Q (walk pt va true) h b := by
  unfold walk
  rw [if_neg (Nat.not_le.mpr hva)]
  obtain ⟨h2, h1, h0⟩ := px_eq va
  refine walkFrom_alloc (v := va / pgSize) hH (.mid _) (.inl rfl) h2 hroot ?_ ?_
  · intro hn hb
    exact hfail G h b (.refl hH id _ b) hb (hH.bot_up id _ _ hn)
  · intro G' h' b' q hg hq
    refine walkFrom_alloc (v := va / pgSize) hg.holds (.bot _ _) (.inr rfl) h1 hq ?_ ?_
    · intro hn hb
      exact hfail G' h' b' hg hb hn
    · intro G'' h'' b'' t hg' ht
      show Q (some (t, px 0 va)) h'' b''
      rw [h0]
      exact hok G'' h'' b'' t (hg.trans hg') ht

end

end Xv6.Vm
