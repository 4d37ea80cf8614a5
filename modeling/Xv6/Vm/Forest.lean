/-
  Page tables as trees.

  `Forest` says what page tables there are: for each of them the page of every node and the leaf
  entry of every virtual page, and besides the pages that the kernel has without mapping them for
  user mode. `Shape` says that a heap looks like that.
-/
import Xv6.Vm.Rules
import Xv6.Vm.Table

namespace Xv6.Vm

open Lib Function Option Heap

/-! ## Indices -/

/-- The user and the kernel page table of each process, the one that `exec` is building, and the
    kernel's own. -/
inductive Tid where
  | user (i : Fin nproc)
  | kern (i : Fin nproc)
  | next
  | kernel
  deriving DecidableEq, Fintype

/-- A node of a page table. -/
inductive Path where
  | root
  | mid (i : Fin 512)
  | bot (i j : Fin 512)
  deriving DecidableEq

/-- `π` is the node that entry `k` of node `π₀` leads to. -/
inductive Path.Child : Path → Fin 512 → Path → Prop
  | mid (i : Fin 512) : Child .root i (.mid i)
  | bot (i j : Fin 512) : Child (.mid i) j (.bot i j)

/-- The virtual page number with the indices `i`, `j`, `k`. -/
def vpn (i j k : Fin 512) : ℕ := i * 262144 + j * 512 + k

def ix2 (v : ℕ) : Fin 512 := index (v / 262144)

def ix1 (v : ℕ) : Fin 512 := index (v / 512)

def ix0 (v : ℕ) : Fin 512 := index v

/-- The bottom node for virtual page `v`. -/
def botOf (v : ℕ) : Path := .bot (ix2 v) (ix1 v)

/-- Virtual pages below `MAXVA`. -/
def maxVpn : ℕ := maxVa / pgSize

theorem vpn_ix {v : ℕ} (hv : v < maxVpn) : vpn (ix2 v) (ix1 v) (ix0 v) = v := by
  have h1 : maxVpn = 67108864 := by decide
  unfold vpn ix2 ix1 ix0
  simp only [index_val]
  omega

theorem ix_vpn (i j k : Fin 512) : ix2 (vpn i j k) = i ∧ ix1 (vpn i j k) = j ∧
    ix0 (vpn i j k) = k := by
  have hi := i.isLt
  have hj := j.isLt
  have hk := k.isLt
  refine ⟨?_, ?_, ?_⟩ <;> apply Fin.ext <;> unfold vpn
  · simp only [ix2, index_val]
    omega
  · simp only [ix1, index_val]
    omega
  · simp only [ix0, index_val]
    omega

theorem px_eq (va : ℕ) :
    px 2 va = ix2 (va / pgSize) ∧ px 1 va = ix1 (va / pgSize) ∧ px 0 va = ix0 (va / pgSize) := by
  unfold px ix2 ix1 ix0 pgSize
  rw [Nat.shiftRight_eq_div_pow, Nat.shiftRight_eq_div_pow, Nat.shiftRight_eq_div_pow,
    Nat.div_div_eq_div_mul, Nat.div_div_eq_div_mul]
  exact ⟨rfl, rfl, rfl⟩

/-! ## Forests -/

structure Forest where
  node : Tid → Path → Option ℕ
  leaf : Tid → ℕ → Pte
  /-- Pages of the kernel that are no page tables. -/
  priv : Set ℕ

/-- The entry for a table one level down. -/
def link : Option ℕ → Pte
  | none => .zero
  | some p => { v := true, ppn := p }

namespace Forest

variable {G : Forest} {id id' : Tid} {π π' : Path} {p q v v' : ℕ} {e : Pte}

/-- The contents of a node. -/
def entries (G : Forest) (id : Tid) : Path → Table
  | .root => fun i => link (G.node id (.mid i))
  | .mid i => fun j => link (G.node id (.bot i j))
  | .bot i j => fun k => G.leaf id (vpn i j k)

def Node (G : Forest) (p : ℕ) : Prop := ∃ id π, G.node id π = some p

/-- The pages that are not for user mode. -/
def Kern (G : Forest) (p : ℕ) : Prop := G.Node p ∨ p ∈ G.priv

def setLeaf (G : Forest) (id : Tid) (v : ℕ) (e : Pte) : Forest :=
  { G with leaf := update G.leaf id (update (G.leaf id) v e) }

def setNode (G : Forest) (id : Tid) (π : Path) (p : Option ℕ) : Forest :=
  { G with node := update G.node id (update (G.node id) π p) }

def addPriv (G : Forest) (p : ℕ) : Forest := { G with priv := insert p G.priv }

def dropPriv (G : Forest) (p : ℕ) : Forest := { G with priv := G.priv \ {p} }

@[simp] theorem setLeaf_node : (G.setLeaf id v e).node = G.node := rfl

@[simp] theorem setLeaf_priv : (G.setLeaf id v e).priv = G.priv := rfl

variable {o : Option ℕ}

@[simp] theorem setNode_leaf : (G.setNode id π o).leaf = G.leaf := rfl

@[simp] theorem setNode_priv : (G.setNode id π o).priv = G.priv := rfl

@[simp] theorem addPriv_node : (G.addPriv p).node = G.node := rfl

@[simp] theorem addPriv_leaf : (G.addPriv p).leaf = G.leaf := rfl

@[simp] theorem dropPriv_node : (G.dropPriv p).node = G.node := rfl

@[simp] theorem dropPriv_leaf : (G.dropPriv p).leaf = G.leaf := rfl

@[simp] theorem mem_addPriv : q ∈ (G.addPriv p).priv ↔ q = p ∨ q ∈ G.priv := Iff.rfl

@[simp] theorem mem_dropPriv : q ∈ (G.dropPriv p).priv ↔ q ∈ G.priv ∧ q ≠ p := Iff.rfl

@[simp] theorem setLeaf_same : (G.setLeaf id v e).leaf id v = e := by
  simp [setLeaf]

theorem setLeaf_other (h : ¬ (id' = id ∧ v' = v)) :
    (G.setLeaf id v e).leaf id' v' = G.leaf id' v' := by
  unfold setLeaf
  by_cases hid : id' = id
  · subst hid
    have hv : v' ≠ v := fun hv => h ⟨rfl, hv⟩
    simp [hv]
  · simp [hid]

theorem setLeaf_leaf : (G.setLeaf id v e).leaf id = update (G.leaf id) v e := by
  simp [setLeaf]

theorem setLeaf_id (h : id' ≠ id) : (G.setLeaf id v e).leaf id' = G.leaf id' := by
  simp [setLeaf, h]

@[simp] theorem setNode_same : (G.setNode id π o).node id π = o := by
  simp [setNode]

theorem setNode_other (h : ¬ (id' = id ∧ π' = π)) :
    (G.setNode id π o).node id' π' = G.node id' π' := by
  unfold setNode
  by_cases hid : id' = id
  · subst hid
    have hπ : π' ≠ π := fun hπ => h ⟨rfl, hπ⟩
    simp [hπ]
  · simp [hid]

theorem setNode_id (h : id' ≠ id) : (G.setNode id π o).node id' = G.node id' := by
  simp [setNode, h]

@[simp] theorem setLeaf_Node : (G.setLeaf id v e).Node p ↔ G.Node p := Iff.rfl

@[simp] theorem setLeaf_Kern : (G.setLeaf id v e).Kern p ↔ G.Kern p := Iff.rfl

/-! Contents of the nodes after a change -/

theorem entries_setLeaf_same (hv : v < maxVpn) : (G.setLeaf id v e).entries id (botOf v) =
      update (G.entries id (botOf v)) (ix0 v) e := by
  funext k
  show (G.setLeaf id v e).leaf id (vpn (ix2 v) (ix1 v) k) = _
  by_cases hk : k = ix0 v
  · subst hk
    rw [vpn_ix hv, setLeaf_same, update_self]
  · rw [update_of_ne hk, setLeaf_other]
    · rfl
    · rintro ⟨_, hvk⟩
      have := (ix_vpn (ix2 v) (ix1 v) k).2.2
      rw [hvk] at this
      exact hk this.symm

theorem entries_setLeaf_other (h : ¬ (id' = id ∧ π = botOf v)) :
    (G.setLeaf id v e).entries id' π = G.entries id' π := by
  cases π with
  | root | mid _ => rfl
  | bot i j =>
    funext k
    refine setLeaf_other ?_
    rintro ⟨hid, hv⟩
    refine h ⟨hid, ?_⟩
    obtain ⟨h2, h1, _⟩ := ix_vpn i j k
    unfold botOf
    rw [← hv, h2, h1]

theorem entries_child {π0 : Path} {k : Fin 512} (hc : Path.Child π0 k π) :
    G.entries id π0 k = link (G.node id π) := by
  cases hc <;> rfl

theorem entries_setNode_parent {π0 : Path} {k : Fin 512} (hc : Path.Child π0 k π) :
    (G.setNode id π o).entries id π0 = update (G.entries id π0) k (link o) := by
  funext k'
  by_cases hk : k' = k
  · subst hk
    rw [entries_child hc, setNode_same, update_self]
  · rw [update_of_ne hk]
    cases hc with
    | mid i | bot i j =>
      show link _ = link _
      rw [setNode_other (by rintro ⟨_, hm⟩; cases hm; exact hk rfl)]

theorem entries_setNode_other (h : ¬ (id' = id ∧ ∃ k, Path.Child π' k π)) :
    (G.setNode id π o).entries id' π' = G.entries id' π' := by
  cases π' with
  | root =>
    funext k
    show link _ = link _
    rw [setNode_other (by rintro ⟨hid, rfl⟩; exact h ⟨hid, k, .mid k⟩)]
  | mid i =>
    funext k
    show link _ = link _
    rw [setNode_other (by rintro ⟨hid, rfl⟩; exact h ⟨hid, k, .bot i k⟩)]
  | bot i j => rfl

/-- A private page that becomes a node is the only new one. -/
theorem node_setNode {r : ℕ} (hn : G.node id π = none) (hr : r ≠ q) :
    ((G.setNode id π (some q)).dropPriv q).Node r ↔ G.Node r := by
  constructor
  · rintro ⟨id', π', hr'⟩
    rw [dropPriv_node] at hr'
    by_cases hnew : id' = id ∧ π' = π
    · rw [hnew.1, hnew.2, setNode_same] at hr'
      exact absurd (some.inj hr').symm hr
    · rw [setNode_other hnew] at hr'
      exact ⟨id', π', hr'⟩
  · rintro ⟨id', π', hr'⟩
    refine ⟨id', π', ?_⟩
    rw [dropPriv_node, setNode_other]
    · exact hr'
    · rintro ⟨rfl, rfl⟩
      rw [hn] at hr'
      cases hr'

end Forest

/-! ## Counting entries -/

namespace Forest

variable {G : Forest} {id : Tid} {p v : ℕ} {e : Pte}

/-- The virtual pages of all tables. -/
noncomputable def vpages : Finset (Tid × ℕ) :=
  (Set.finite_univ.prod (Set.finite_lt_nat maxVpn)).toFinset

theorem mem_vpages (hv : v < maxVpn) : (id, v) ∈ vpages :=
  (Set.Finite.mem_toFinset _).mpr ⟨Set.mem_univ id, hv⟩

/-- How many entries map page `p` for user mode. -/
noncomputable def refs (G : Forest) (p : ℕ) : ℕ :=
  ∑ x ∈ vpages, ((G.leaf x.1 x.2).maps p).toNat

theorem refs_congr {G' : Forest} (hl : ∀ id v, (G'.leaf id v).maps p = (G.leaf id v).maps p) :
    G'.refs p = G.refs p :=
  Finset.sum_congr rfl fun x _ => congrArg Bool.toNat (hl x.1 x.2)

theorem refs_setLeaf (hv : v < maxVpn) : (G.setLeaf id v e).refs p + ((G.leaf id v).maps p).toNat =
    G.refs p + (e.maps p).toNat := by
  have hx : (id, v) ∈ vpages := mem_vpages hv
  unfold refs
  rw [← Finset.add_sum_erase _ _ hx, ← Finset.add_sum_erase vpages
    (fun x => ((G.leaf x.1 x.2).maps p).toNat) hx]
  have hrest : ∑ x ∈ vpages.erase (id, v), (((G.setLeaf id v e).leaf x.1 x.2).maps p).toNat =
      ∑ x ∈ vpages.erase (id, v), ((G.leaf x.1 x.2).maps p).toNat := by
    refine Finset.sum_congr rfl fun x hx => ?_
    rw [setLeaf_other fun hne => Finset.ne_of_mem_erase hx (Prod.ext hne.1 hne.2)]
  rw [hrest, setLeaf_same]
  dsimp only
  omega

theorem refs_same (hv : v < maxVpn) (hm : e.maps p = (G.leaf id v).maps p) :
    (G.setLeaf id v e).refs p = G.refs p := by
  have : (G.setLeaf id v e).refs p + _ = _ := refs_setLeaf hv
  rw [hm] at this
  exact Nat.add_right_cancel this

theorem refs_map (hv : v < maxVpn) (hold : (G.leaf id v).maps p = false) (he : e.maps p = true) :
    (G.setLeaf id v e).refs p = G.refs p + 1 := by
  have : (G.setLeaf id v e).refs p + _ = _ := refs_setLeaf hv
  rwa [hold, he] at this

theorem refs_unmap (hv : v < maxVpn) (hold : (G.leaf id v).maps p = true) (he : e.maps p = false) :
    (G.setLeaf id v e).refs p + 1 = G.refs p := by
  have : (G.setLeaf id v e).refs p + _ = _ := refs_setLeaf hv
  rwa [hold, he] at this

theorem refs_pos (hv : v < maxVpn) (hm : (G.leaf id v).maps p = true) : 0 < G.refs p := by
  refine Finset.sum_pos' (fun _ _ => Nat.zero_le _) ⟨(id, v), mem_vpages hv, ?_⟩
  rw [hm]
  decide

theorem refs_eq_zero (hm : ∀ id v, (G.leaf id v).maps p = false) : G.refs p = 0 :=
  Finset.sum_eq_zero fun x _ => by rw [hm x.1 x.2]; rfl

end Forest

/-! ## Heaps that look like a forest -/

structure Shape (G : Forest) (h : PageHeap) : Prop where
  table : ∀ id π p, G.node id π = some p → h p = some (1, .table (G.entries id π))
  inj : ∀ id π id' π' p, G.node id π = some p → G.node id' π' = some p → id = id' ∧ π = π'
  mid_up : ∀ id i, G.node id .root = none → G.node id (.mid i) = none
  bot_up : ∀ id i j, G.node id (.mid i) = none → G.node id (.bot i j) = none
  leafless : ∀ id i j k, G.node id (.bot i j) = none → G.leaf id (vpn i j k) = .zero
  /-- There are no virtual pages beyond `MAXVA`, and the tables hold nothing for them. -/
  bound : ∀ id v, maxVpn ≤ v → G.leaf id v = .zero
  apart : ∀ p, G.Node p → p ∉ G.priv

namespace Shape

variable {G : Forest} {h : PageHeap} {id : Tid} {p t v : ℕ} {c : Cell PageData} {e : Pte}

theorem leaf_zero (hs : Shape G h) (hv : G.node id (botOf v) = none) : G.leaf id v = .zero := by
  rcases Nat.lt_or_ge v maxVpn with hlt | hge
  · rw [← vpn_ix hlt]
    exact hs.leafless id _ _ _ hv
  · exact hs.bound id v hge

/-- A valid leaf has a bottom node. -/
theorem bot_of_leaf (hs : Shape G h) (hv : (G.leaf id v).v = true) :
    v < maxVpn ∧ ∃ t, G.node id (botOf v) = some t := by
  refine ⟨?_, ?_⟩
  · by_contra hge
    rw [hs.bound id v (by omega)] at hv
    cases hv
  · cases hn : G.node id (botOf v) with
    | some t => exact ⟨t, rfl⟩
    | none =>
      rw [hs.leaf_zero hn] at hv
      cases hv

/-- The entry for `v`, where its bottom node is `t`. -/
theorem entry (hv : v < maxVpn) : G.entries id (botOf v) (ix0 v) = G.leaf id v := by
  show G.leaf id (vpn (ix2 v) (ix1 v) (ix0 v)) = _
  rw [vpn_ix hv]

section

variable (hs : Shape G h)

include hs

theorem set_other (hp : ¬ G.Node p) : Shape G (h.set p c) := by
  refine ⟨?_, hs.inj, hs.mid_up, hs.bot_up, hs.leafless, hs.bound, hs.apart⟩
  intro id π q hq
  have hqp : q ≠ p := by
    rintro rfl
    exact hp ⟨id, π, hq⟩
  rw [set_ne h c hqp]
  exact hs.table id π q hq

theorem setLeaf (hv : v < maxVpn) (ht : G.node id (botOf v) = some t) (e : Pte) :
    Shape (G.setLeaf id v e)
      (h.set t (some (1, .table (update (G.entries id (botOf v)) (ix0 v) e)))) := by
  refine ⟨?_, hs.inj, hs.mid_up, hs.bot_up, ?_, ?_, hs.apart⟩
  · intro id' π q hq
    have hq : G.node id' π = some q := hq
    by_cases hqt : q = t
    · subst hqt
      obtain ⟨rfl, rfl⟩ := hs.inj _ _ _ _ _ hq ht
      rw [set_same, Forest.entries_setLeaf_same hv]
    · rw [set_ne _ _ hqt, Forest.entries_setLeaf_other, hs.table id' π q hq]
      rintro ⟨rfl, rfl⟩
      exact hqt (some.inj (hq.symm.trans ht))
  · intro id' i j k hn
    rw [Forest.setLeaf_node] at hn
    rw [Forest.setLeaf_other, hs.leafless id' i j k hn]
    rintro ⟨rfl, hvk⟩
    obtain ⟨h2, h1, _⟩ := ix_vpn i j k
    have hbot : botOf v = .bot i j := by
      unfold botOf
      rw [← hvk, h2, h1]
    rw [hbot, hn] at ht
    cases ht
  · intro id' v' hv'
    rw [Forest.setLeaf_other (by rintro ⟨_, rfl⟩; omega)]
    exact hs.bound id' v' hv'

variable {q : ℕ} {π : Path}

/-- The contents of a node that does not exist yet. -/
theorem entries_missing (hn : G.node id π = none) : G.entries id π = fun _ => .zero := by
  funext k
  cases π with
  | root =>
    show link (G.node id (.mid k)) = _
    rw [hs.mid_up id k hn]
    rfl
  | mid i =>
    show link (G.node id (.bot i k)) = _
    rw [hs.bot_up id i k hn]
    rfl
  | bot i j => exact hs.leafless id i j k hn

/-- Nodes stay at different pages when one is added at a page that was none. -/
theorem inj_setNode (hq : ¬ G.Node q) (id1 : Tid) (π1 : Path)
    (id2 : Tid) (π2 : Path) (p : ℕ) (h1 : (G.setNode id π (some q)).node id1 π1 = some p)
    (h2 : (G.setNode id π (some q)).node id2 π2 = some p) : id1 = id2 ∧ π1 = π2 := by
  by_cases hn1 : id1 = id ∧ π1 = π <;> by_cases hn2 : id2 = id ∧ π2 = π
  · exact ⟨hn1.1.trans hn2.1.symm, hn1.2.trans hn2.2.symm⟩
  · rw [hn1.1, hn1.2, Forest.setNode_same] at h1
    obtain rfl := some.inj h1
    rw [Forest.setNode_other hn2] at h2
    exact absurd ⟨id2, π2, h2⟩ hq
  · rw [hn2.1, hn2.2, Forest.setNode_same] at h2
    obtain rfl := some.inj h2
    rw [Forest.setNode_other hn1] at h1
    exact absurd ⟨id1, π1, h1⟩ hq
  · rw [Forest.setNode_other hn1] at h1
    rw [Forest.setNode_other hn2] at h2
    exact hs.inj _ _ _ _ _ h1 h2

theorem apart_setNode (p : ℕ) (hp : ((G.setNode id π (some q)).dropPriv q).Node p) :
    p ∉ ((G.setNode id π (some q)).dropPriv q).priv := by
  obtain ⟨id', π', hp⟩ := hp
  rw [Forest.dropPriv_node] at hp
  rw [Forest.mem_dropPriv, Forest.setNode_priv]
  rintro ⟨hpriv, hpq⟩
  by_cases hnew : id' = id ∧ π' = π
  · rw [hnew.1, hnew.2, Forest.setNode_same] at hp
    exact hpq (some.inj hp).symm
  · rw [Forest.setNode_other hnew] at hp
    exact hs.apart p ⟨id', π', hp⟩ hpriv

/-- A cleared private page becomes a node. -/
theorem addNode {π0 : Path} {k : Fin 512} (hc : Path.Child π0 k π)
    (ht : G.node id π0 = some t) (hn : G.node id π = none) (hq : q ∈ G.priv)
    (hz : h q = some (1, .table fun _ => .zero)) : Shape ((G.setNode id π (some q)).dropPriv q)
      (h.set t (some (1, .table (update (G.entries id π0) k { v := true, ppn := q })))) := by
  have hqN : ¬ G.Node q := fun hN => hs.apart q hN hq
  have hqt : q ≠ t := by
    rintro rfl
    exact hqN ⟨id, π0, ht⟩
  refine ⟨?_, hs.inj_setNode hqN, ?_, ?_, ?_, hs.bound, hs.apart_setNode⟩
  · intro id' π' p hp
    rw [Forest.dropPriv_node] at hp
    show _ = some (1, PageData.table ((G.setNode id π (some q)).entries id' π'))
    by_cases hnew : id' = id ∧ π' = π
    · obtain ⟨rfl, rfl⟩ := hnew
      rw [Forest.setNode_same] at hp
      obtain rfl := some.inj hp
      rw [set_ne _ _ hqt, hz, Forest.entries_setNode_other, hs.entries_missing hn]
      rintro ⟨_, k', hc'⟩
      cases hc'
    · rw [Forest.setNode_other hnew] at hp
      by_cases hpt : p = t
      · subst hpt
        obtain ⟨rfl, rfl⟩ := hs.inj _ _ _ _ _ hp ht
        rw [set_same, Forest.entries_setNode_parent hc]
        rfl
      · rw [set_ne _ _ hpt, hs.table id' π' p hp, Forest.entries_setNode_other]
        rintro ⟨rfl, k', hc'⟩
        have hπ : π' = π0 := by cases hc <;> cases hc' <;> rfl
        subst hπ
        exact hpt (some.inj (hp.symm.trans ht))
  · intro id' i hr
    rw [Forest.dropPriv_node, Forest.setNode_other (by rintro ⟨_, rfl⟩; cases hc)] at hr
    rw [Forest.dropPriv_node, Forest.setNode_other]
    · exact hs.mid_up id' i hr
    · rintro ⟨rfl, rfl⟩
      cases hc
      rw [hr] at ht
      cases ht
  · intro id' i j hm
    have hne : ¬ (id' = id ∧ Path.mid i = π) := by
      rintro ⟨rfl, rfl⟩
      rw [Forest.dropPriv_node, Forest.setNode_same] at hm
      cases hm
    rw [Forest.dropPriv_node, Forest.setNode_other hne] at hm
    rw [Forest.dropPriv_node, Forest.setNode_other]
    · exact hs.bot_up id' i j hm
    · rintro ⟨rfl, rfl⟩
      cases hc
      rw [hm] at ht
      cases ht
  · intro id' i j k' hb
    have hne : ¬ (id' = id ∧ Path.bot i j = π) := by
      rintro ⟨rfl, rfl⟩
      rw [Forest.dropPriv_node, Forest.setNode_same] at hb
      cases hb
    rw [Forest.dropPriv_node, Forest.setNode_other hne] at hb
    exact hs.leafless id' i j k' hb

/-- A cleared private page becomes the root of an empty table. -/
theorem addRoot (hn : G.node id .root = none) (hq : q ∈ G.priv)
    (hz : h q = some (1, .table fun _ => .zero)) :
    Shape ((G.setNode id .root (some q)).dropPriv q) h := by
  have hqN : ¬ G.Node q := fun hN => hs.apart q hN hq
  have hother : ∀ id' π', π' ≠ .root →
      ((G.setNode id .root (some q)).dropPriv q).node id' π' = G.node id' π' := by
    intro id' π' hπ
    rw [Forest.dropPriv_node, Forest.setNode_other fun hx => hπ hx.2]
  refine ⟨?_, hs.inj_setNode hqN, ?_, ?_, ?_, hs.bound, hs.apart_setNode⟩
  · intro id' π' p hp
    rw [Forest.dropPriv_node] at hp
    show _ = some (1, PageData.table ((G.setNode id .root (some q)).entries id' π'))
    rw [Forest.entries_setNode_other (by rintro ⟨_, k, hc⟩; cases hc)]
    by_cases hnew : id' = id ∧ π' = .root
    · obtain ⟨rfl, rfl⟩ := hnew
      rw [Forest.setNode_same] at hp
      obtain rfl := some.inj hp
      rw [hz, hs.entries_missing hn]
    · rw [Forest.setNode_other hnew] at hp
      exact hs.table id' π' p hp
  · intro id' i hr
    rw [hother id' (.mid i) nofun]
    by_cases hid : id' = id
    · subst hid
      exact hs.mid_up id' i hn
    · rw [Forest.dropPriv_node, Forest.setNode_other (fun hx => hid hx.1)] at hr
      exact hs.mid_up id' i hr
  · intro id' i j hm
    rw [hother id' (.mid i) nofun] at hm
    rw [hother id' (.bot i j) nofun]
    exact hs.bot_up id' i j hm
  · intro id' i j k hb
    rw [hother id' (.bot i j) nofun] at hb
    exact hs.leafless id' i j k hb

end

end Shape

end Xv6.Vm
