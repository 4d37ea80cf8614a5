/-
  The memory in use, as a forest.

  `Holds L G h`: the heap `h` consists of the page tables and private pages of `G` and of the
  pages that the tables map for user mode, each with as many references as entries. A page that
  an entry lets user mode write has no other entry.

  The moves below are what the kernel's functions do to such a heap between two points at which
  it is in order: a page is allocated or freed, a table is added, an entry is set.
-/
import Xv6.Vm.Forest

namespace Xv6.Vm

open Lib Function Bool Forest Heap

/-- A page mapped for user mode, by `m` entries. -/
def UserCell (m : ℕ) (c : Cell PageData) : Prop :=
  m = 0 ∧ c = none ∨ 0 < m ∧ ∃ f, c = some (m, .bytes f)

namespace UserCell

variable {m : ℕ} {c : Cell PageData}

theorem mk (hm : 0 < m) (f : ℕ → UInt8) : UserCell m (some (m, .bytes f)) :=
  .inr ⟨hm, f, rfl⟩

theorem bytes (hc : UserCell m c) (hm : 0 < m) : ∃ f, c = some (m, .bytes f) := by
  rcases hc with ⟨h0, _⟩ | ⟨_, hf⟩
  · omega
  · exact hf

theorem held (hc : UserCell m c) (hm : 0 < m) : c ≠ none := by
  obtain ⟨f, rfl⟩ := hc.bytes hm
  simp

theorem zero_of_none (hc : UserCell m none) : m = 0 := by
  by_contra hm
  exact hc.held (Nat.pos_of_ne_zero hm) rfl

theorem less (hc : UserCell (m + 1) c) : UserCell m (lessRef c) := by
  obtain ⟨f, rfl⟩ := hc.bytes (Nat.succ_pos m)
  cases m with
  | zero => exact .inl ⟨rfl, rfl⟩
  | succ m => exact .mk (Nat.succ_pos m) f

end UserCell

structure Holds (L : Layout) (G : Forest) (h : PageHeap) : Prop extends Shape G h where
  range : ∀ p, h p ≠ none → p ∈ L.managed
  own : ∀ p ∈ G.priv, ∃ d, h p = some (1, d)
  kern : ∀ p, G.Kern p → G.refs p = 0
  user : ∀ p, ¬ G.Kern p → UserCell (G.refs p) (h p)
  writable : ∀ id v p, (G.leaf id v).maps p = true → (G.leaf id v).w = true → G.refs p = 1

variable {L : Layout} {G G' : Forest} {h h' : PageHeap} {id id' : Tid} {p q t v v' : ℕ} {e : Pte}
  {d : PageData}

theorem Shape.refs_pos (hs : Shape G h) (hm : (G.leaf id v).maps p = true) : 0 < G.refs p := by
  obtain ⟨hv, _⟩ := hs.bot_of_leaf (maps_iff.mp hm).1
  exact Forest.refs_pos hv hm

theorem maps_zero (p : ℕ) : Pte.zero.maps p = false := rfl

theorem maps_inj (hp : e.maps p = true) (hq : e.maps q = true) : q = p :=
  (maps_iff.mp hq).2.2.symm.trans (maps_iff.mp hp).2.2

namespace Holds

section

variable (hH : Holds L G h)

include hH

theorem own_of_kern (hp : G.Kern p) : ∃ d, h p = some (1, d) := by
  rcases hp with ⟨id, π, hp⟩ | hp
  · exact ⟨_, hH.table id π p hp⟩
  · exact hH.own p hp

theorem managed_of_kern (hp : G.Kern p) : p ∈ L.managed := by
  obtain ⟨d, hd⟩ := hH.own_of_kern hp
  exact hH.range p (by simp [hd])

theorem not_kern_of_none (hp : h p = none) : ¬ G.Kern p := by
  intro hk
  obtain ⟨d, hd⟩ := hH.own_of_kern hk
  rw [hp] at hd
  cases hd

theorem refs_of_none (hp : h p = none) : G.refs p = 0 := by
  have := hH.user p (hH.not_kern_of_none hp)
  rw [hp] at this
  exact this.zero_of_none

/-- A page that an entry maps for user mode holds bytes, and is counted. -/
theorem of_leaf (hm : (G.leaf id v).maps p = true) :
    ¬ G.Kern p ∧ 0 < G.refs p ∧ UserCell (G.refs p) (h p) := by
  have hpos := hH.toShape.refs_pos hm
  have hk : ¬ G.Kern p := by
    intro hk
    rw [hH.kern p hk] at hpos
    exact Nat.lt_irrefl 0 hpos
  exact ⟨hk, hpos, hH.user p hk⟩

theorem managed_of_leaf (hm : (G.leaf id v).maps p = true) : p ∈ L.managed := by
  obtain ⟨_, hpos, hc⟩ := hH.of_leaf hm
  exact hH.range p (hc.held hpos)

theorem not_mapped (hq : G.Kern q ∨ h q = none) (id : Tid) (v : ℕ) :
    (G.leaf id v).maps q = false := by
  rw [eq_false_iff]
  intro hm
  obtain ⟨hk, hpos, hc⟩ := hH.of_leaf hm
  rcases hq with hq | hq
  · exact hk hq
  · exact hc.held hpos hq

/-- A page with one reference is mapped once. -/
theorem unique (h1 : (G.leaf id v).maps p = true) (h2 : (G.leaf id' v').maps p = true)
    (hone : G.refs p = 1) : id' = id ∧ v' = v := by
  by_contra hne
  obtain ⟨hv, t, ht⟩ := hH.toShape.bot_of_leaf (maps_iff.mp h1).1
  have hs := hH.toShape.setLeaf hv ht .zero
  have hpos : 0 < (G.setLeaf id v .zero).refs p :=
    hs.refs_pos (show ((G.setLeaf id v .zero).leaf id' v').maps p =
      true by rw [setLeaf_other hne]; exact h2)
  have hsum := refs_unmap hv h1 (maps_zero p)
  omega

/-! ## Private pages and tables -/

/-- What holds for pages outside `X` carries over when no valid entry changes, and the pages of
    `X` are looked at one by one. -/
theorem change (hs : Shape G' h') (X : Set ℕ) (hleaf : ∀ id v, G'.leaf id v = G.leaf id v ∨
      (G'.leaf id v).v = false ∧ (G.leaf id v).v = false)
    (hcell : ∀ q, q ∉ X → ¬ G.Node q → h' q = h q) (hnode : ∀ q, q ∉ X → (G'.Node q ↔ G.Node q))
    (hpriv : ∀ q, q ∉ X → (q ∈ G'.priv ↔ q ∈ G.priv))
    (hzero : ∀ q ∈ X, q ∈ L.managed ∧ G.refs q = 0)
    (hownX : ∀ q ∈ X, q ∈ G'.priv → ∃ d, h' q = some (1, d))
    (hnoneX : ∀ q ∈ X, ¬ G'.Kern q → h' q = none) : Holds L G' h' := by
  have hrefs : G'.refs = G.refs := by
    funext q
    refine refs_congr fun id v => ?_
    rcases hleaf id v with hl | ⟨h1, h2⟩
    · rw [hl]
    · unfold Pte.maps
      rw [h1, h2]
      rfl
  have hkern : ∀ q, q ∉ X → (G'.Kern q ↔ G.Kern q) := by
    intro q hq
    unfold Forest.Kern
    rw [hnode q hq, hpriv q hq]
  refine ⟨hs, ?_, ?_, ?_, ?_, ?_⟩
  · intro q hq
    by_cases hX : q ∈ X
    · exact (hzero q hX).1
    · by_cases hN : G.Node q
      · exact hH.managed_of_kern (.inl hN)
      · rw [hcell q hX hN] at hq
        exact hH.range q hq
  · intro q hq
    by_cases hX : q ∈ X
    · exact hownX q hX hq
    · have hq' := (hpriv q hX).mp hq
      rw [hcell q hX (fun hN => hH.apart q hN hq')]
      exact hH.own q hq'
  · intro q hq
    rw [hrefs]
    by_cases hX : q ∈ X
    · exact (hzero q hX).2
    · exact hH.kern q ((hkern q hX).mp hq)
  · intro q hq
    rw [hrefs]
    by_cases hX : q ∈ X
    · exact .inl ⟨(hzero q hX).2, hnoneX q hX hq⟩
    · have hk : ¬ G.Kern q := fun hk => hq ((hkern q hX).mpr hk)
      rw [hcell q hX (fun hN => hk (.inl hN))]
      exact hH.user q hk
  · intro id v q hm hw
    rw [hrefs]
    rcases hleaf id v with hl | ⟨h1, _⟩
    · rw [hl] at hm hw
      exact hH.writable id v q hm hw
    · rw [(maps_iff.mp hm).1] at h1
      cases h1

theorem addPriv (hp : p ∈ L.managed) (hn : h p = none) :
    Holds L (G.addPriv p) (h.set p (some (1, d))) := by
  have hk := hH.not_kern_of_none hn
  have hs : Shape (G.addPriv p) (h.set p (some (1, d))) := by
    have := hH.toShape.set_other (p := p) (c := some (1, d)) (fun hN => hk (.inl hN))
    refine ⟨this.table, this.inj, this.mid_up, this.bot_up, this.leafless, this.bound, ?_⟩
    intro q hN hq
    rcases hq with rfl | hq
    · exact hk (.inl hN)
    · exact hH.apart q hN hq
  refine hH.change hs {p} (fun _ _ => .inl rfl) ?_ (fun q _ => Iff.rfl) ?_ ?_ ?_ ?_
  · intro q hq _
    exact set_ne h _ hq
  · intro q hq
    rw [mem_addPriv]
    exact ⟨fun hx => hx.resolve_left hq, .inr⟩
  · rintro q rfl
    exact ⟨hp, hH.refs_of_none hn⟩
  · rintro q rfl _
    exact ⟨d, set_same h q _⟩
  · rintro q rfl hq
    exact absurd (.inr (.inl rfl)) hq

theorem setPriv (hp : p ∈ G.priv) : Holds L G (h.set p (some (1, d))) := by
  have hs := hH.toShape.set_other (p := p) (c := some (1, d)) (fun hN => hH.apart p hN hp)
  refine hH.change hs {p} (fun _ _ => .inl rfl) ?_ (fun q _ => Iff.rfl) (fun q _ => Iff.rfl)
    ?_ ?_ ?_
  · intro q hq _
    exact set_ne h _ hq
  · rintro q rfl
    exact ⟨hH.managed_of_kern (.inr hp), hH.kern q (.inr hp)⟩
  · rintro q rfl _
    exact ⟨d, set_same h q _⟩
  · rintro q rfl hk
    exact absurd (.inr hp) hk

theorem dropPriv (hp : p ∈ G.priv) : Holds L (G.dropPriv p) (h.set p none) := by
  have hNp : ¬ G.Node p := fun hN => hH.apart p hN hp
  have hs : Shape (G.dropPriv p) (h.set p none) := by
    have := hH.toShape.set_other (p := p) (c := none) hNp
    exact ⟨this.table, this.inj, this.mid_up, this.bot_up, this.leafless, this.bound,
      fun q hN hq => hH.apart q hN hq.1⟩
  refine hH.change hs {p} (fun _ _ => .inl rfl) ?_ (fun q _ => Iff.rfl) ?_ ?_ ?_ ?_
  · intro q hq _
    exact set_ne h _ hq
  · intro q hq
    rw [mem_dropPriv]
    exact ⟨And.left, fun hx => ⟨hx, hq⟩⟩
  · rintro q rfl
    exact ⟨hH.managed_of_kern (.inr hp), hH.kern q (.inr hp)⟩
  · rintro q rfl hq
    exact absurd rfl hq.2
  · rintro q rfl _
    exact set_same h q _

/-- The heap after entry `i` of the table in page `t` is set. -/
def setEntry (h : PageHeap) (t : ℕ) (tb : Table) (i : Fin 512) (e : Pte) : PageHeap :=
  h.set t (some (1, .table (update tb i e)))

omit hH in
theorem setEntry_ne (h : PageHeap) (tb : Table) (i : Fin 512) (e : Pte) {t q : ℕ} (hq : q ≠ t) :
    setEntry h t tb i e q = h q :=
  set_ne h _ hq

/-- A private page becomes a node of a table. -/
theorem newNode {π : Path} (hs : Shape ((G.setNode id π (some q)).dropPriv q) h')
    (hn : G.node id π = none) (hq : q ∈ G.priv) (hcell : ∀ r, ¬ G.Node r → h' r = h r) :
    Holds L ((G.setNode id π (some q)).dropPriv q) h' := by
  refine hH.change hs {q} (fun _ _ => .inl rfl) (fun r _ => hcell r)
    (fun r hr => node_setNode hn hr) ?_ ?_ ?_ ?_
  · intro r hr
    rw [mem_dropPriv, setNode_priv]
    exact ⟨And.left, fun hx => ⟨hx, hr⟩⟩
  · rintro r rfl
    exact ⟨hH.managed_of_kern (.inr hq), hH.kern r (.inr hq)⟩
  · rintro r rfl hr
    exact absurd rfl hr.2
  · rintro r rfl hr
    refine absurd (.inl ⟨id, π, ?_⟩) hr
    rw [dropPriv_node, setNode_same]

theorem addNode {π0 π : Path} {k : Fin 512} (hc : Path.Child π0 k π)
    (ht : G.node id π0 = some t) (hn : G.node id π = none) (hq : q ∈ G.priv)
    (hz : h q = some (1, .table fun _ => .zero)) : Holds L ((G.setNode id π (some q)).dropPriv q)
      (setEntry h t (G.entries id π0) k { v := true, ppn := q }) := by
  refine hH.newNode (hH.toShape.addNode hc ht hn hq hz) hn hq ?_
  intro r hr
  exact setEntry_ne h _ _ _ (fun hrt => hr (hrt ▸ ⟨id, π0, ht⟩))

theorem addRoot (hn : G.node id .root = none) (hq : q ∈ G.priv)
    (hz : h q = some (1, .table fun _ => .zero)) :
    Holds L ((G.setNode id .root (some q)).dropPriv q) h :=
  hH.newNode (hH.toShape.addRoot hn hq hz) hn hq fun _ _ => rfl

/-! ## Leaves -/

/-- A leaf is set, and the pages that it mapped or maps now get their counts. -/
theorem relink (hv : v < maxVpn) (ht : G.node id (botOf v) = some t) (hs : Shape G' h')
    (hnode : G'.node = G.node) (hleaf : G'.leaf = (G.setLeaf id v e).leaf)
    (hpriv : ∀ q, q ∈ G'.priv ↔ q ∈ G.priv ∧ e.maps q = false)
    (hpage : ∀ q, e.maps q = true → ¬ G.Node q ∧ q ∈ L.managed)
    (hcell : ∀ q, q ≠ t → (G.leaf id v).maps q = false → e.maps q = false → h' q = h q)
    (huser : ∀ q, (G.leaf id v).maps q = true ∨ e.maps q = true → UserCell (G'.refs q) (h' q))
    (hw : ∀ id' v' q, (G.leaf id v).maps q = true ∨ e.maps q = true →
      (G'.leaf id' v').maps q = true → (G'.leaf id' v').w = true → G'.refs q = 1) :
    Holds L G' h' := by
  have hrefs : ∀ q, (G.leaf id v).maps q = false → e.maps q = false → G'.refs q = G.refs q := by
    intro q h1 h2
    rw [← refs_same (G := G) hv (h2.trans h1.symm)]
    exact refs_congr fun _ _ => by rw [hleaf]
  have hN : ∀ q, G'.Node q ↔ G.Node q := by
    intro q
    unfold Forest.Node
    rw [hnode]
  -- a page that neither entry maps
  have hout : ∀ q, ¬ ((G.leaf id v).maps q = true ∨ e.maps q = true) →
      (G.leaf id v).maps q = false ∧ e.maps q = false := by
    intro q hq
    simpa using hq
  have hkern : ∀ q, G'.Kern q → G.Kern q ∧ (G.leaf id v).maps q = false ∧ e.maps q = false := by
    rintro q (hq | hq)
    · refine ⟨.inl ((hN q).mp hq), hH.not_mapped (.inl (.inl ((hN q).mp hq))) id v, ?_⟩
      exact eq_false_iff.mpr fun hm => (hpage q hm).1 ((hN q).mp hq)
    · obtain ⟨hq, he⟩ := (hpriv q).mp hq
      exact ⟨.inr hq, hH.not_mapped (.inl (.inr hq)) id v, he⟩
  refine ⟨hs, ?_, ?_, ?_, ?_, ?_⟩
  · intro q hq
    by_cases hm : (G.leaf id v).maps q = true ∨ e.maps q = true
    · exact hm.elim (fun hm => hH.managed_of_leaf hm) fun hm => (hpage q hm).2
    · by_cases hqt : q = t
      · exact hqt ▸ hH.managed_of_kern (.inl ⟨id, _, ht⟩)
      · rw [hcell q hqt (hout q hm).1 (hout q hm).2] at hq
        exact hH.range q hq
  · intro q hq
    obtain ⟨hk, h1, h2⟩ := hkern q (.inr hq)
    obtain ⟨hp, _⟩ := (hpriv q).mp hq
    rw [hcell q (fun hqt => hH.apart q (hqt ▸ ⟨id, _, ht⟩) hp) h1 h2]
    exact hH.own q hp
  · intro q hq
    obtain ⟨hk, h1, h2⟩ := hkern q hq
    rw [hrefs q h1 h2]
    exact hH.kern q hk
  · intro q hq
    by_cases hm : (G.leaf id v).maps q = true ∨ e.maps q = true
    · exact huser q hm
    · obtain ⟨h1, h2⟩ := hout q hm
      have hk : ¬ G.Kern q := by
        rintro (hk | hk)
        · exact hq (.inl ((hN q).mpr hk))
        · exact hq (.inr ((hpriv q).mpr ⟨hk, h2⟩))
      rw [hrefs q h1 h2, hcell q (fun hqt => hk (.inl (hqt ▸ ⟨id, _, ht⟩))) h1 h2]
      exact hH.user q hk
  · intro id' v' q hmq hwq
    by_cases hm : (G.leaf id v).maps q = true ∨ e.maps q = true
    · exact hw id' v' q hm hmq hwq
    · obtain ⟨h1, h2⟩ := hout q hm
      have hne : ¬ (id' = id ∧ v' = v) := by
        rintro ⟨rfl, rfl⟩
        rw [hleaf, setLeaf_same, h2] at hmq
        cases hmq
      rw [hleaf, setLeaf_other hne] at hmq hwq
      rw [hrefs q h1 h2]
      exact hH.writable id' v' q hmq hwq

variable (hv : v < maxVpn) (ht : G.node id (botOf v) = some t)

include hv ht

/-- An entry is replaced by one that maps the same page for user mode, or by one that maps none
    when it mapped none. -/
theorem setLeaf (hm : ∀ q, e.maps q = (G.leaf id v).maps q)
    (hw : ∀ q, e.maps q = true → e.w = true → G.refs q = 1) :
    Holds L (G.setLeaf id v e) (setEntry h t (G.entries id (botOf v)) (ix0 v) e) := by
  have htN : G.Node t := ⟨id, _, ht⟩
  have hrefs : ∀ q, (G.setLeaf id v e).refs q = G.refs q := fun q => refs_same hv (hm q)
  refine hH.relink hv ht (hH.toShape.setLeaf hv ht e) rfl rfl ?_ ?_ ?_ ?_ ?_
  · intro q
    refine ⟨fun hq => ⟨hq, ?_⟩, And.left⟩
    rw [hm q]
    exact hH.not_mapped (.inl (.inr hq)) id v
  · intro q hq
    rw [hm q] at hq
    exact ⟨fun hN => (hH.of_leaf hq).1 (.inl hN), hH.managed_of_leaf hq⟩
  · exact fun q hqt _ _ => setEntry_ne h _ _ _ hqt
  · intro q hq
    obtain ⟨hk, _, hc⟩ := hH.of_leaf (hq.elim (·) fun hq => (hm q).symm.trans hq)
    rw [hrefs, setEntry_ne h _ _ _ (by rintro rfl; exact hk (.inl htN))]
    exact hc
  · intro id' v' q _ hmq hwq
    rw [hrefs]
    by_cases hne : id' = id ∧ v' = v
    · obtain ⟨rfl, rfl⟩ := hne
      rw [setLeaf_same] at hmq hwq
      exact hw q hmq hwq
    · rw [setLeaf_other hne] at hmq hwq
      exact hH.writable id' v' q hmq hwq

/-- A private page with bytes is mapped for user mode. -/
theorem mapPriv (hold : ∀ q, (G.leaf id v).maps q = false) (he : e.maps p = true) (hp : p ∈ G.priv)
    {f : ℕ → UInt8} (hf : h p = some (1, .bytes f)) :
    Holds L ((G.setLeaf id v e).dropPriv p) (setEntry h t (G.entries id (botOf v)) (ix0 v) e) := by
  have hs := hH.toShape.setLeaf hv ht e
  have htN : G.Node t := ⟨id, _, ht⟩
  have hrefs : (G.setLeaf id v e).refs p = 1 := by
    rw [refs_map hv (hold p) he, hH.kern p (.inr hp)]
  have hpage : ∀ q, (G.leaf id v).maps q = true ∨ e.maps q = true → q = p := by
    rintro q (hm | hm)
    · rw [hold q] at hm
      cases hm
    · exact maps_inj he hm
  refine hH.relink (e := e) hv ht ⟨hs.table, hs.inj, hs.mid_up, hs.bot_up, hs.leafless, hs.bound,
    fun q hN hq => hs.apart q hN hq.1⟩ rfl rfl ?_ ?_ (fun q hqt _ _ => setEntry_ne h _ _ _ hqt)
      ?_ ?_
  · intro q
    rw [mem_dropPriv]
    refine and_congr_right fun _ => ⟨fun hqp => ?_, fun hm hqp => ?_⟩
    · exact eq_false_iff.mpr fun hm => hqp (maps_inj he hm)
    · rw [hqp, he] at hm
      cases hm
  · intro q hm
    obtain rfl := maps_inj he hm
    exact ⟨fun hN => hH.apart q hN hp, hH.managed_of_kern (.inr hp)⟩
  · intro q hm
    obtain rfl := hpage q hm
    rw [setEntry_ne h _ _ _ (by rintro rfl; exact hH.apart q htN hp), hf]
    show UserCell ((G.setLeaf id v e).refs q) _
    rw [hrefs]
    exact .mk Nat.one_pos f
  · intro _ _ q hm _ _
    rw [hpage q hm]
    exact hrefs

/-- A leaf changes and the page it mapped is given back. -/
theorem unlink (he : (G.leaf id v).maps p = true) (hs : Shape G' h') (hnode : G'.node = G.node)
    (hleaf : G'.leaf = (G.setLeaf id v e).leaf)
    (hpriv : ∀ q, q ∈ G'.priv ↔ q ∈ G.priv ∧ e.maps q = false)
    (hpage : ∀ q, e.maps q = true → q ∈ G.priv ∧ ∃ f, h' q = some (1, .bytes f))
    (hcell : ∀ q, q ≠ t → q ≠ p → e.maps q = false → h' q = h q) (hp : h' p = lessRef (h p)) :
    Holds L G' h' := by
  obtain ⟨hk, hpos, hc⟩ := hH.of_leaf he
  have hrefs : ∀ q, G'.refs q = (G.setLeaf id v e).refs q := fun q =>
    refs_congr fun _ _ => by rw [hleaf]
  have hep : e.maps p = false := eq_false_iff.mpr fun hm => hk (.inr (hpage p hm).1)
  have hold : G'.refs p + 1 = G.refs p := by
    rw [hrefs, refs_unmap hv he hep]
  have hnew : ∀ q, e.maps q = true → G'.refs q = 1 := by
    intro q hm
    have hk : G.Kern q := .inr (hpage q hm).1
    rw [hrefs, refs_map hv (hH.not_mapped (.inl hk) id v) hm, hH.kern q hk]
  refine hH.relink hv ht hs hnode hleaf hpriv ?_ ?_ ?_ ?_
  · intro q hm
    have hq := (hpage q hm).1
    exact ⟨fun hN => hH.apart q hN hq, hH.managed_of_kern (.inr hq)⟩
  · intro q hqt h1 h2
    exact hcell q hqt (fun hqp => by rw [hqp, he] at h1; cases h1) h2
  · rintro q (hm | hm)
    · rw [maps_inj he hm, hp]
      rw [← hold] at hc
      exact hc.less
    · obtain ⟨f, hf⟩ := (hpage q hm).2
      rw [hnew q hm, hf]
      exact .mk Nat.one_pos f
  · rintro id' v' q (hm | hm) hmq hwq
    · -- another entry for the page would still be counted, and this one was not the only one
      obtain rfl := maps_inj he hm
      have hpos' := hs.refs_pos hmq
      have hne : ¬ (id' = id ∧ v' = v) := by
        rintro ⟨rfl, rfl⟩
        rw [hleaf, setLeaf_same, hep] at hmq
        cases hmq
      rw [hleaf, setLeaf_other hne] at hmq hwq
      have := hH.writable id' v' q hmq hwq
      omega
    · exact hnew q hm

/-- An entry is cleared after its page has been given back. -/
theorem unmap (he : (G.leaf id v).maps p = true) : Holds L (G.setLeaf id v .zero)
      (setEntry (h.set p (lessRef (h p))) t (G.entries id (botOf v)) (ix0 v) .zero) := by
  have hk := (hH.of_leaf he).1
  have hpt : p ≠ t := fun hpt => hk (.inl (hpt ▸ ⟨id, _, ht⟩))
  refine hH.unlink hv ht he ((hH.toShape.set_other (c := lessRef (h p))
    fun hN => hk (.inl hN)).setLeaf hv ht .zero) rfl rfl ?_ ?_ ?_ ?_
  · exact fun q => ⟨fun hq => ⟨hq, rfl⟩, And.left⟩
  · rintro q ⟨⟩
  · intro q hqt hqp _
    rw [setEntry_ne _ _ _ _ hqt, set_ne h _ hqp]
  · rw [setEntry_ne _ _ _ _ hpt, set_same]

/-- An entry is moved from a page to a private copy, and the old page given back. -/
theorem remap {old mem : ℕ} (he : (G.leaf id v).maps old = true) (he' : e.maps mem = true)
    (hmem : mem ∈ G.priv) {f : ℕ → UInt8} (hf : h mem = some (1, .bytes f)) :
    Holds L ((G.setLeaf id v e).dropPriv mem)
      ((setEntry h t (G.entries id (botOf v)) (ix0 v) e).set old (lessRef (h old))) := by
  have hk := (hH.of_leaf he).1
  have htN : G.Node t := ⟨id, _, ht⟩
  have hom : mem ≠ old := fun hom => hk (.inr (hom ▸ hmem))
  have hs := (hH.toShape.setLeaf hv ht e).set_other (p := old) (c := lessRef (h old))
    fun hN => hk (.inl hN)
  refine hH.unlink (e := e) hv ht he ⟨hs.table, hs.inj, hs.mid_up, hs.bot_up, hs.leafless, hs.bound,
    fun q hN hq => hs.apart q hN hq.1⟩ rfl rfl ?_ ?_ ?_ (set_same _ _ _)
  · intro q
    rw [mem_dropPriv]
    refine and_congr_right fun _ => ⟨fun hqp => ?_, fun hm hqp => ?_⟩
    · exact eq_false_iff.mpr fun hm => hqp (maps_inj he' hm)
    · rw [hqp, he'] at hm
      cases hm
  · intro q hm
    obtain rfl := maps_inj he' hm
    refine ⟨hmem, f, ?_⟩
    rw [set_ne _ _ hom, setEntry_ne _ _ _ _ (by rintro rfl; exact hH.apart q htN hmem), hf]
  · intro q hqt hqp _
    rw [set_ne _ _ hqp, setEntry_ne _ _ _ _ hqt]

/-- A page that another entry maps without letting user mode write it is mapped once more. -/
theorem share {n : ℕ} (hold : ∀ q, (G.leaf id v).maps q = false) (he : e.maps p = true)
    (hew : e.w = false) (hm : (G.leaf id' v').maps p = true) (hmw : (G.leaf id' v').w = false)
    {f : ℕ → UInt8} (hf : h p = some (n, .bytes f)) : Holds L (G.setLeaf id v e)
      ((setEntry h t (G.entries id (botOf v)) (ix0 v) e).set p (some (n + 1, .bytes f))) := by
  obtain ⟨hk, hpos, hc⟩ := hH.of_leaf hm
  have hn : n = G.refs p := by
    obtain ⟨f', hf'⟩ := hc.bytes hpos
    rw [hf] at hf'
    cases hf'
    rfl
  have hrefs : (G.setLeaf id v e).refs p = n + 1 := by
    rw [refs_map hv (hold p) he, hn]
  have hpage : ∀ q, (G.leaf id v).maps q = true ∨ e.maps q = true → q = p := by
    rintro q (hq | hq)
    · rw [hold q] at hq
      cases hq
    · exact maps_inj he hq
  refine hH.relink (e := e) hv ht ((hH.toShape.setLeaf hv ht e).set_other fun hN => hk (.inl hN))
    rfl rfl ?_ ?_ ?_ ?_ ?_
  · intro q
    refine ⟨fun hq => ⟨hq, eq_false_iff.mpr fun hqe => hk (.inr ?_)⟩, And.left⟩
    exact maps_inj he hqe ▸ hq
  · intro q hq
    rw [maps_inj he hq]
    exact ⟨fun hN => hk (.inl hN), hH.managed_of_leaf hm⟩
  · intro q hqt _ hqe
    rw [set_ne _ _ (fun hqp => by rw [hqp, he] at hqe; cases hqe), setEntry_ne _ _ _ _ hqt]
  · intro q hq
    rw [hpage q hq, set_same, hrefs]
    exact .mk (Nat.succ_pos n) f
  · intro id1 v1 q hq hq1 hw1
    rw [hpage q hq] at hq1 ⊢
    by_cases hne : id1 = id ∧ v1 = v
    · rw [hne.1, hne.2, setLeaf_same, hew] at hw1
      cases hw1
    · rw [setLeaf_other hne] at hq1 hw1
      -- the entry that lets user mode write the page would have been the only one
      obtain ⟨rfl, rfl⟩ := hH.unique hq1 hm (hH.writable id1 v1 p hq1 hw1)
      rw [hmw] at hw1
      cases hw1

end

end Holds

end Xv6.Vm
