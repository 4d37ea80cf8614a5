/-
  What `freeproc` gives back, and a fork that fails.

  A page is free if and only if it is the kernel's in no way and no entry maps it. So the pages that
  are free after `freeproc` can be read off the tables before it, and a fork that leaves the tables
  as they were has left the free pages and the counts.
-/
import Xv6.Vm.Isolation

namespace Xv6.Vm

open Lib Process Function Forest

variable {L : Layout} {G G' : Forest} {h h' : PageHeap} {id : Tid} {m : Machine}
  {own : ℕ → Option Slot} {s : Store PageData} {i j : Slot} {p q root : ℕ} {π : Path}

/-! ## Free pages -/

theorem Holds.none_iff (hH : Holds L G h) : h q = none ↔ ¬ G.Kern q ∧ G.refs q = 0 := by
  constructor
  · exact fun hq => ⟨hH.not_kern_of_none hq, hH.refs_of_none hq⟩
  · rintro ⟨hk, h0⟩
    rcases hH.user q hk with ⟨_, hq⟩ | ⟨hpos, _⟩
    · exact hq
    · omega

/-- The count of a page is 1 for the kernel's, and for others the number of entries. -/
theorem Holds.count (hH : Holds L G h) :
    (G.Kern q → (h q).refs = 1) ∧ (¬ G.Kern q → (h q).refs = G.refs q) := by
  refine ⟨fun hk => ?_, fun hk => ?_⟩
  · obtain ⟨d, hd⟩ := hH.own_of_kern hk
    rw [hd]
    rfl
  · rcases hH.user q hk with ⟨h0, hq⟩ | ⟨_, f, hq⟩
    · rw [hq, h0]
      rfl
    · rw [hq]
      rfl

/-- How many entries of one table map page `p` for user mode. -/
def Forest.refsIn (G : Forest) (id : Tid) (p : ℕ) : ℕ :=
  ((Finset.range maxVpn).filter fun v => (G.leaf id v).maps p = true).card

theorem Forest.refs_eq_sum (G : Forest) (p : ℕ) : G.refs p = ∑ id, G.refsIn id p := by
  have hv : vpages = Finset.univ ×ˢ Finset.range maxVpn := by
    ext x
    simp [vpages]
  unfold refs
  rw [hv, Finset.sum_product]
  refine Finset.sum_congr rfl fun id _ => ?_
  unfold refsIn
  rw [Finset.card_filter]
  refine Finset.sum_congr rfl fun v _ => ?_
  cases (G.leaf id v).maps p <;> rfl

/-- The entries of one table are taken away. -/
theorem Forest.refs_drop (hother : ∀ id', id' ≠ id → G'.refsIn id' p = G.refsIn id' p)
    (hzero : G'.refsIn id p = 0) : G'.refs p + G.refsIn id p = G.refs p := by
  rw [refs_eq_sum, refs_eq_sum, ← Finset.add_sum_erase _ _ (Finset.mem_univ id),
    ← Finset.add_sum_erase _ (fun id => G.refsIn id p) (Finset.mem_univ id), hzero,
    Finset.sum_congr rfl fun x hx => hother x (Finset.ne_of_mem_erase hx)]
  omega

theorem Forest.refsIn_eq_zero (hm : ∀ v, (G.leaf id v).maps p = false) : G.refsIn id p = 0 := by
  unfold refsIn
  rw [Finset.card_eq_zero, Finset.filter_eq_empty_iff]
  intro v _ hx
  rw [hm v] at hx
  cases hx

/-! ## The pages of a process -/

/-- How many entries of process `i` map page `q` for user mode. -/
def Machine.refs (m : Machine) (i : Slot) (q : ℕ) : ℕ :=
  ((Finset.range maxVpn).filter fun v => (m.entry i v).maps q = true).card

theorem Inv.refs (hI : Inv L m h G own) (hi : m.Live i) : m.refs i q = G.refsIn (.user i) q := by
  unfold Machine.refs refsIn
  refine congrArg Finset.card (Finset.filter_congr fun v _ => ?_)
  rw [hI.entry hi]

namespace Inv

variable (hI : Inv L m h G own) (hi : m.Live i)

include hI hi

end Inv

/-! ## `freeproc` -/

theorem Shape.node_none (hs : Shape G h) (hroot : G.node id .root = none) : G.node id π = none := by
  cases π with
  | root => exact hroot
  | mid i => exact hs.mid_up id i hroot
  | bot i j => exact hs.bot_up id i j (hs.mid_up id i hroot)

namespace Inv

variable (hI : Inv L m h G own) (hi : m.Live i)
  (hv : Vacated L i (G.priv \ slotPages G i (m.procs i)) G h G' h')

include hI hi hv

end Inv

theorem Shares.maps {sz v : ℕ} {f f' : ℕ → Pte} (hs : Shares sz f f') :
    (f' v).maps q = (f v).maps q := by
  rcases hs v with heq | ⟨_, _, heq⟩
  · rw [heq]
  · rw [heq, Pte.share_maps]

section

variable {sz : ℕ} (hf : Unforked L i j sz G h G' h') (hH : Holds L G h)
  (hu : G.node (.user j) .root = none) (hk : G.node (.kern j) .root = none)

include hf hH hu hk

/-- The tables but that of process `i`. -/
theorem Unforked.other (hid : id ≠ .user i) : G'.node id = G.node id ∧ G'.leaf id = G.leaf id := by
  have hnone : G.node id .root = none → G'.node id .root = none →
      G'.node id = G.node id ∧ G'.leaf id = G.leaf id := by
    intro h1 h2
    refine ⟨funext fun π => ?_, funext fun v => ?_⟩
    · rw [hH.toShape.node_none h1, hf.holds.toShape.node_none h2]
    · rw [hH.toShape.leaf_zero (hH.toShape.node_none h1),
        hf.holds.toShape.leaf_zero (hf.holds.toShape.node_none h2)]
  by_cases hj : id = .user j
  · exact hnone (hj ▸ hu) (hj ▸ hf.user)
  by_cases hkj : id = .kern j
  · exact hnone (hkj ▸ hk) (hkj ▸ hf.kern)
  · have hmem : id ∉ ({.user i, .user j, .kern j} : Set Tid) := not_mem_triple hid hj hkj
    exact ⟨hf.rest.node id hmem, hf.rest.leaf id hmem⟩

theorem Unforked.node_eq : G'.node = G.node := by
  funext id
  by_cases hi : id = .user i
  · rw [hi, hf.node]
  · exact (hf.other hH hu hk hi).1

/-- The kernel has what it had, and every page has its references. -/
theorem Unforked.same : (G'.Kern q ↔ G.Kern q) ∧ G'.refs q = G.refs q := by
  refine ⟨?_, refs_congr fun id v => ?_⟩
  · unfold Forest.Kern Forest.Node
    rw [hf.node_eq hH hu hk, hf.priv]
  · by_cases hi : id = .user i
    · subst hi
      exact hf.share.maps
    · rw [(hf.other hH hu hk hi).2]

end

/-! ## `uvmcopy` -/

section

variable {old new : Tid} {sz k : ℕ} (hc : Copying L old new sz k G h G' h')

include hc

/-- The references after `uvmcopy` are those before and those of the new table. -/
theorem Copying.refs (hl0 : UserLeaves (G.leaf new) 0) :
    G.refs q + G'.refsIn new q = G'.refs q := by
  refine refs_drop (fun id hid => ?_) (refsIn_eq_zero fun v => ?_)
  · by_cases ho : id = old
    · subst ho
      unfold refsIn
      refine congrArg Finset.card (Finset.filter_congr fun v _ => ?_)
      rw [hc.share.maps]
    · unfold refsIn
      rw [hc.frame.leaf id (not_mem_pair ho hid)]
  · rw [Bool.eq_false_iff]
    exact fun hm => absurd (hl0.lt_of_maps hm) (Nat.not_lt_zero v)

theorem Copying.refsIn (hk : k ≤ maxVpn) : G'.refsIn new q =
    ((Finset.range k).filter fun v => (G.leaf old v).maps q = true).card := by
  have hcopy : ∀ v, v < k → ((G'.leaf new v).maps q = true ↔ (G.leaf old v).maps q = true) := by
    intro v hv
    cases hval : (G.leaf old v).v with
    | true => rw [((hc.copied v hv).1 hval).2, Pte.share_maps]
    | false =>
      unfold Pte.maps
      rw [hval, (hc.copied v hv).2 hval]
      simp only [Bool.false_and]
  unfold Forest.refsIn
  refine congrArg Finset.card (Finset.ext fun v => ?_)
  rw [Finset.mem_filter, Finset.mem_filter, Finset.mem_range, Finset.mem_range]
  constructor
  · rintro ⟨_, hm⟩
    have hv := hc.leaves.lt_of_maps hm
    exact ⟨hv, (hcopy v hv).mp hm⟩
  · rintro ⟨hv, hm⟩
    exact ⟨hv.trans_le hk, (hcopy v hv).mpr hm⟩

end

end Xv6.Vm
