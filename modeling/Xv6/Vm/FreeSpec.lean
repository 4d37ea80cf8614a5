/-
  `freewalk` and `uvmfree`.

  `freewalk` follows the valid entries and gives back every table it meets. What it meets is said
  for the heap alone, by `Dead`: nested tables without leaves, and the pages they are in.
-/
import Xv6.Vm.UnmapSpec

namespace Xv6.Vm

open Lib Function Set Forest Heap

variable {L : Layout} {E : Panic → Prop} {G G' : Forest} {h h' : PageHeap} {id id' : Tid}
  {p q t v pt sz b b' : ℕ} {e : Pte} {S : Set ℕ}

/-! ## Nested tables without leaves -/

/-- In page `p` is a table with up to `n` levels and no leaf entries; its pages are `S`. -/
def Dead (h : PageHeap) : ℕ → ℕ → Set ℕ → Prop
  | 0, _, _ => False
  | n + 1, p, S => ∃ (tb : Table) (C : Fin 512 → Set ℕ), h p = some (1, .table tb) ∧
      (∀ k, (tb k).v = false ∧ C k = ∅ ∨
        (tb k).v = true ∧ (tb k).toFlags = {} ∧ Dead h n (tb k).ppn (C k)) ∧
      (∀ k, p ∉ C k) ∧ (∀ k k', k ≠ k' → Disjoint (C k) (C k')) ∧ S = insert p (⋃ k, C k)

theorem Dead.congr {n : ℕ} (hd : Dead h n p S) (hS : ∀ q ∈ S, h' q = h q) : Dead h' n p S := by
  induction n generalizing p S with
  | zero => exact hd
  | succ n ih =>
    obtain ⟨tb, C, hp, hk, hpC, hdis, rfl⟩ := hd
    refine ⟨tb, C, (hS p (mem_insert p _)).trans hp, fun k => ?_, hpC, hdis, rfl⟩
    refine (hk k).imp_right fun ⟨h1, h2, h3⟩ => ⟨h1, h2, ih h3 fun q hq => hS q ?_⟩
    exact mem_insert_of_mem p (Set.mem_iUnion.mpr ⟨k, hq⟩)

/-- The table in the course of the loop: the entries before `j` are cleared. -/
def cleared (tb : Table) (j : ℕ) : Table :=
  fun k => if k.val < j ∧ (tb k).v = true then .zero else tb k

theorem cleared_self (tb : Table) (j : Fin 512) : cleared tb j j = tb j := by
  unfold cleared
  rw [if_neg (by omega)]

theorem cleared_succ (tb : Table) (j : Fin 512) :
    cleared tb (j + 1) = if (tb j).v = true then update (cleared tb j) j .zero else
      cleared tb j := by
  funext k
  by_cases hkj : k = j
  · subst hkj
    split_ifs with hv
    · rw [update_self]
      exact if_pos ⟨Nat.lt_succ_self _, hv⟩
    · rw [cleared_self]
      exact if_neg fun hx => hv hx.2
  · have hne : k.val ≠ j.val := fun hx => hkj (Fin.ext hx)
    have hsame : cleared tb (j + 1) k = cleared tb j k := by
      unfold cleared
      by_cases hlt : k.val < j.val
      · simp only [hlt, Nat.lt_succ_of_lt hlt]
      · simp only [hlt, show ¬ k.val < j.val + 1 by omega]
    split_ifs
    · rw [update_of_ne hkj, hsame]
    · exact hsame

/-- The heap in the course of the loop over the table in page `p`. -/
structure Clearing (h : PageHeap) (p : ℕ) (tb : Table) (C : Fin 512 → Set ℕ) (j : ℕ)
    (h' : PageHeap) : Prop where
  table : h' p = some (1, .table (cleared tb j))
  gone : ∀ k : Fin 512, k.val < j → ∀ q ∈ C k, h' q = none
  rest : ∀ q, q ≠ p → (∀ k : Fin 512, k.val < j → q ∉ C k) → h' q = h q

theorem Clearing.skip {tb : Table} {C : Fin 512 → Set ℕ} {k : Fin 512} (hc : Clearing h p tb C k h')
    (hv : (tb k).v = false) (hk : C k = ∅) : Clearing h p tb C (k + 1) h' where
  table := by rw [cleared_succ, if_neg (by simp [hv]), hc.table]
  gone k' hk' q hq := by
    rcases Nat.lt_succ_iff_lt_or_eq.mp hk' with hlt | heq
    · exact hc.gone k' hlt q hq
    · rw [Fin.ext heq, hk] at hq
      exact hq.elim
  rest q hq hout := hc.rest q hq fun k' hk' => hout k' (by omega)

/-- The table behind entry `k` has been given back; now the entry is cleared. -/
theorem Clearing.next {tb : Table} {C : Fin 512 → Set ℕ} {k : Fin 512} {h'' : PageHeap}
    (hc : Clearing h p tb C k h') (hpC : ∀ k, p ∉ C k) (hv : (tb k).v = true)
    (hgone : ∀ q ∈ C k, h'' q = none) (hrest : ∀ q, q ∉ C k → h'' q = h' q) :
    Clearing h p tb C (k + 1) (h''.set p (some (1, .table (update (cleared tb k) k .zero)))) := by
  have htab : cleared tb (k + 1) = update (cleared tb k) k .zero := by
    rw [cleared_succ, if_pos hv]
  rw [← htab]
  refine ⟨set_same _ _ _, ?_, ?_⟩
  · intro k' hk' q hq
    have hqp : q ≠ p := by
      rintro rfl
      exact hpC k' hq
    rw [set_ne _ _ hqp]
    by_cases hqk : q ∈ C k
    · exact hgone q hqk
    · rw [hrest q hqk]
      rcases Nat.lt_succ_iff_lt_or_eq.mp hk' with hlt | heq
      · exact hc.gone k' hlt q hq
      · rw [Fin.ext heq] at hq
        exact absurd hq hqk
  · intro q hqp hout
    rw [set_ne _ _ hqp, hrest q (hout k (Nat.lt_succ_self _))]
    exact hc.rest q hqp fun k' hk' => hout k' (by omega)

/-- **`freewalk`** gives back the pages of the table and nothing else. -/
theorem freewalk_spec {Q : Post Unit} {n : ℕ} (hd : Dead h n p S) (hS : ∀ q ∈ S, q ∈ L.managed)
    (hQ : ∀ h' b', (∀ q ∈ S, h' q = none) → (∀ q, q ∉ S → h' q = h q) → Q () h' b') :
    Spec L E Q (freewalk L n p) h b := by
  induction n generalizing h b p S Q with
  | zero => exact hd.elim
  | succ n ih =>
    obtain ⟨tb, C, hp, hk, hpC, hdis, rfl⟩ := hd
    unfold freewalk
    refine wp_seq (wp_mono ?_ (wp_times (I := fun j h' _ => Clearing h p tb C j h') ?_ ?_))
    · -- all entries are cleared
      intro _ h' b' hc
      have hc : Clearing h p tb C 512 h' := hc
      refine kfree_spec (hS p (mem_insert p _)) hc.table ?_
      intro b'' _
      rw [hc.table]
      refine hQ _ b'' ?_ ?_
      · intro q hq
        by_cases hqp : q = p
        · rw [hqp]
          exact set_same _ _ _
        · obtain ⟨k, hqk⟩ := Set.mem_iUnion.mp ((Set.mem_insert_iff.mp hq).resolve_left hqp)
          rw [set_ne _ _ hqp]
          exact hc.gone k k.isLt q hqk
      · intro q hq
        rw [mem_insert_iff, not_or, mem_iUnion, not_exists] at hq
        rw [set_ne _ _ hq.1]
        exact hc.rest q hq.1 fun k _ => hq.2 k
    · refine ⟨?_, fun k hk => absurd hk (Nat.not_lt_zero _), fun _ _ _ => rfl⟩
      rw [hp, show cleared tb 0 = tb from funext fun k => if_neg fun hx => Nat.not_lt_zero _ hx.1]
    · intro j h' b' _ hj hc
      obtain ⟨k, rfl⟩ : ∃ k : Fin 512, k.val = j := ⟨⟨j, by omega⟩, rfl⟩
      have hof : index k.val = k := Fin.ext (Nat.mod_eq_of_lt k.isLt)
      rw [hof]
      refine wp_seq (readPte_spec hc.table ?_)
      rw [cleared_self]
      rcases hk k with ⟨hv, hCk⟩ | ⟨hv, hfl, hdk⟩
      · rw [if_neg (by simp [hv])]
        exact hc.skip hv hCk
      · have hr : (tb k).r = false := congrArg Flags.r hfl
        have hw : (tb k).w = false := congrArg Flags.w hfl
        have hx : (tb k).x = false := congrArg Flags.x hfl
        rw [if_pos hv, if_pos ⟨hr, hw, hx⟩]
        have hCk : ∀ q ∈ C k, h' q = h q := by
          intro q hq
          refine hc.rest q (fun hqp => hpC k (hqp ▸ hq)) fun k' hk' hq' => ?_
          refine Set.disjoint_left.mp (hdis k' k ?_) hq' hq
          rintro rfl
          exact Nat.lt_irrefl _ hk'
        refine wp_seq (ih (hdk.congr hCk) ?_ ?_)
        · intro q hq
          exact hS q (mem_insert_of_mem p (Set.mem_iUnion.mpr ⟨k, hq⟩))
        · intro h'' b'' hgone hrest
          exact setPte_spec ((hrest p (hpC k)).trans hc.table) (hc.next hpC hv hgone hrest)

/-! ## A page table without leaves -/

namespace Forest

/-- Without table `id`. -/
def dropTable (G : Forest) (id : Tid) : Forest :=
  { G with
    node := update G.node id fun _ => none
    leaf := update G.leaf id fun _ => .zero }

/-- The pages of table `id`. -/
def nodes (G : Forest) (id : Tid) : Set ℕ := { p | ∃ π, G.node id π = some p }

theorem dropTable_node_other (h : id' ≠ id) : (G.dropTable id).node id' = G.node id' :=
  update_of_ne h _ _

theorem dropTable_leaf_other (h : id' ≠ id) : (G.dropTable id).leaf id' = G.leaf id' :=
  update_of_ne h _ _

theorem dropTable_node_same : (G.dropTable id).node id = fun _ => none := update_self _ _ _

theorem dropTable_leaf_same : (G.dropTable id).leaf id = fun _ => .zero := update_self _ _ _

theorem dropTable_entries (h : id' ≠ id) (π : Path) :
    (G.dropTable id).entries id' π = G.entries id' π := by
  cases π <;> funext k <;> unfold entries
  · rw [dropTable_node_other h]
  · rw [dropTable_node_other h]
  · rw [dropTable_leaf_other h]

end Forest

theorem link_cases (o : Option ℕ) : (link o).v = false ∧ o = none ∨
    ∃ q, o = some q ∧ (link o).v = true ∧ (link o).toFlags = {} ∧ (link o).ppn = q := by
  cases o with
  | none => exact .inl ⟨rfl, rfl⟩
  | some q => exact .inr ⟨q, rfl, rfl, rfl, rfl⟩

/-- One level: a node whose children are dead. -/
theorem Holds.dead_node (hH : Holds L G h) {π : Path} {n : ℕ} {D : Fin 512 → Set Path}
    {c : Fin 512 → Path} (hc : ∀ k, Path.Child π k (c k)) (hp : G.node id π = some p)
    (hchild : ∀ k q, G.node id (c k) = some q →
      Dead h n q { r | ∃ π' ∈ D k, G.node id π' = some r })
    (hnone : ∀ k, G.node id (c k) = none → ∀ π' ∈ D k, G.node id π' = none)
    (hπ : ∀ k, π ∉ D k) (hdis : ∀ k k', k ≠ k' → Disjoint (D k) (D k')) :
    Dead h (n + 1) p { r | ∃ π' ∈ insert π (⋃ k, D k), G.node id π' = some r } := by
  refine ⟨G.entries id π, fun k => { r | ∃ π' ∈ D k, G.node id π' = some r }, hH.table id π p hp,
    ?_, ?_, ?_, ?_⟩
  · intro k
    rw [entries_child (hc k)]
    rcases link_cases (G.node id (c k)) with ⟨hv, hn⟩ | ⟨q, hq, hv, hfl, hppn⟩
    · refine .inl ⟨hv, eq_empty_of_forall_notMem ?_⟩
      rintro r ⟨π', hπ', hr⟩
      rw [hnone k hn π' hπ'] at hr
      cases hr
    · exact .inr ⟨hv, hfl, hppn ▸ hchild k q hq⟩
  · rintro k ⟨π', hπ', hr⟩
    exact hπ k ((hH.inj _ _ _ _ _ hp hr).2 ▸ hπ')
  · intro k k' hkk
    refine Set.disjoint_left.mpr ?_
    rintro r ⟨π1, h1, hr1⟩ ⟨π2, h2, hr2⟩
    exact Set.disjoint_left.mp (hdis k k' hkk) h1 ((hH.inj _ _ _ _ _ hr1 hr2).2 ▸ h2)
  · ext r
    constructor
    · rintro ⟨π', hπ', hr⟩
      rcases hπ' with rfl | hπ'
      · exact .inl (Option.some.inj (hr.symm.trans hp))
      · obtain ⟨k, hk⟩ := Set.mem_iUnion.mp hπ'
        exact .inr (Set.mem_iUnion.mpr ⟨k, π', hk, hr⟩)
    · rintro (rfl | hr)
      · exact ⟨π, mem_insert π _, hp⟩
      · obtain ⟨k, π', hk, hr⟩ := Set.mem_iUnion.mp hr
        exact ⟨π', mem_insert_of_mem _ (Set.mem_iUnion.mpr ⟨k, hk⟩), hr⟩

theorem Holds.dead_bot (hH : Holds L G h) (hl : ∀ v, (G.leaf id v).v = false) {i j : Fin 512}
    (hp : G.node id (.bot i j) = some p) :
    Dead h 1 p { r | ∃ π' ∈ ({.bot i j} : Set Path), G.node id π' = some r } := by
  refine ⟨_, fun _ => ∅, hH.table id _ p hp, fun k => .inl ⟨hl _, rfl⟩, fun _ hx => hx,
    fun _ _ _ => disjoint_empty _, ?_⟩
  ext r
  constructor
  · rintro ⟨π', rfl, hr⟩
    exact .inl (Option.some.inj (hr.symm.trans hp))
  · rintro (rfl | hr)
    · exact ⟨_, rfl, hp⟩
    · simp at hr

/-- The nodes at or below the middle node `i`. -/
def below (i : Fin 512) : Set Path := insert (.mid i) (⋃ j : Fin 512, {.bot i j})

theorem mem_below {i : Fin 512} {π : Path} : π ∈ below i ↔ π = .mid i ∨ ∃ j, π = .bot i j := by
  unfold below
  rw [mem_insert_iff, mem_iUnion]
  rfl

section

variable (hH : Holds L G h) (hl : ∀ v, (G.leaf id v).v = false)

include hH hl

theorem Holds.dead_mid {i : Fin 512} (hp : G.node id (.mid i) = some p) :
    Dead h 2 p { r | ∃ π' ∈ below i, G.node id π' = some r } := by
  refine hH.dead_node (D := fun j => {.bot i j}) (c := fun j => .bot i j) (fun j => .bot i j) hp
    (fun j q hq => hH.dead_bot hl hq) ?_ nofun ?_
  · rintro j hn π' rfl
    exact hn
  · intro j j' hjj
    refine Set.disjoint_left.mpr ?_
    rintro π' rfl hx
    cases hx
    exact hjj rfl

theorem Holds.dead_root (hp : G.node id .root = some p) : Dead h 3 p (G.nodes id) := by
  have hd := hH.dead_node (D := below) (c := .mid) (fun i => .mid i) hp
    (fun i q hq => hH.dead_mid hl hq) ?_ ?_ ?_
  · refine (?_ : _ = G.nodes id) ▸ hd
    ext r
    constructor
    · rintro ⟨π', _, hr⟩
      exact ⟨π', hr⟩
    · rintro ⟨π', hr⟩
      refine ⟨π', ?_, hr⟩
      cases π' with
      | root => exact .inl rfl
      | mid i => exact .inr (Set.mem_iUnion.mpr ⟨i, mem_below.mpr (.inl rfl)⟩)
      | bot i j => exact .inr (Set.mem_iUnion.mpr ⟨i, mem_below.mpr (.inr ⟨j, rfl⟩)⟩)
  · intro i hn π' hπ'
    rcases mem_below.mp hπ' with rfl | ⟨j, rfl⟩
    · exact hn
    · exact hH.bot_up id i j hn
  · intro i hx
    rcases mem_below.mp hx with hx | ⟨_, hx⟩ <;> cases hx
  · intro i i' hii
    refine Set.disjoint_left.mpr fun π' h1 h2 => ?_
    rcases mem_below.mp h1 with rfl | ⟨j, rfl⟩ <;> rcases mem_below.mp h2 with hx | ⟨j', hx⟩ <;>
      cases hx <;>
      exact hii rfl

/-- A table without leaves goes. -/
theorem Holds.dropTable (hgone : ∀ q ∈ G.nodes id, h' q = none)
    (hrest : ∀ q, q ∉ G.nodes id → h' q = h q) : Holds L (G.dropTable id) h' := by
  have hnodeOf : ∀ id' π p, (G.dropTable id).node id' π = some p → id' ≠ id ∧
      G.node id' π = some p := by
    intro id' π p hp
    by_cases hid : id' = id
    · rw [hid, dropTable_node_same] at hp
      cases hp
    · rw [dropTable_node_other hid] at hp
      exact ⟨hid, hp⟩
  have hout : ∀ id' π p, id' ≠ id → G.node id' π = some p → p ∉ G.nodes id := by
    rintro id' π p hid hp ⟨π', hp'⟩
    exact hid (hH.inj _ _ _ _ _ hp hp').1
  have hs : Shape (G.dropTable id) h' := by
    refine ⟨?_, ?_, ?_, ?_, ?_, ?_, ?_⟩
    · intro id' π p hp
      obtain ⟨hid, hp⟩ := hnodeOf id' π p hp
      rw [hrest p (hout id' π p hid hp), dropTable_entries hid]
      exact hH.table id' π p hp
    · intro id1 π1 id2 π2 p h1 h2
      exact hH.inj _ _ _ _ _ (hnodeOf _ _ _ h1).2 (hnodeOf _ _ _ h2).2
    · intro id' i hn
      by_cases hid : id' = id
      · rw [hid, dropTable_node_same]
      · rw [dropTable_node_other hid] at hn ⊢
        exact hH.mid_up id' i hn
    · intro id' i j hn
      by_cases hid : id' = id
      · rw [hid, dropTable_node_same]
      · rw [dropTable_node_other hid] at hn ⊢
        exact hH.bot_up id' i j hn
    · intro id' i j k hn
      by_cases hid : id' = id
      · rw [hid, dropTable_leaf_same]
      · rw [dropTable_node_other hid] at hn
        rw [dropTable_leaf_other hid]
        exact hH.leafless id' i j k hn
    · intro id' v hv
      by_cases hid : id' = id
      · rw [hid, dropTable_leaf_same]
      · rw [dropTable_leaf_other hid]
        exact hH.bound id' v hv
    · rintro p ⟨id', π, hp⟩
      exact hH.apart p ⟨id', π, (hnodeOf _ _ _ hp).2⟩
  refine hH.change hs (G.nodes id) ?_ (fun q hq _ => hrest q hq) ?_ (fun _ _ => Iff.rfl) ?_ ?_
    fun q hq _ => hgone q hq
  · intro id' v
    by_cases hid : id' = id
    · rw [hid, dropTable_leaf_same]
      exact .inr ⟨rfl, hl v⟩
    · exact .inl (by rw [dropTable_leaf_other hid])
  · intro q hq
    constructor
    · rintro ⟨id', π, hp⟩
      exact ⟨id', π, (hnodeOf _ _ _ hp).2⟩
    · rintro ⟨id', π, hp⟩
      refine ⟨id', π, ?_⟩
      rw [dropTable_node_other]
      · exact hp
      · rintro rfl
        exact hq ⟨π, hp⟩
  · rintro q ⟨π, hq⟩
    have hk : G.Kern q := .inl ⟨id, π, hq⟩
    exact ⟨hH.managed_of_kern hk, hH.kern q hk⟩
  · rintro q ⟨π, hq⟩ hpriv
    exact absurd hpriv (hH.apart q ⟨id, π, hq⟩)

end

theorem freewalk_table {Q : Post Unit} (hH : Holds L G h) (hroot : G.node id .root = some pt)
    (hl : ∀ v, (G.leaf id v).v = false)
    (hQ : ∀ h' b', Holds L (G.dropTable id) h' → (∀ q, q ∉ G.nodes id → h' q = h q) → Q () h' b') :
    Spec L E Q (freewalk L 3 pt) h b := by
  refine freewalk_spec (hH.dead_root hl hroot) ?_ ?_
  · rintro q ⟨π, hq⟩
    exact hH.managed_of_kern (.inl ⟨id, π, hq⟩)
  · intro h' b' hgone hrest
    exact hQ h' b' (hH.dropTable hl hgone hrest) hrest

end Xv6.Vm
