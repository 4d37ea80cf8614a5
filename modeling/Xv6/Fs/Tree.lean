/-
  The directory tree of a file system.

  `links` reads the nodes as a graph of directories and leaves: the entries of a directory from the
  third one on are its edges, and `..` is its way up. `Tree` says that the graph is in order and
  that every directory has `.` and `..` in front, with distinct names.
-/
import Xv6.Fs.PathSpec
import Xv6.Lib.Links

namespace Xv6.Fs

open Lib Function Option Node

/-! ## Nodes as a graph -/

def nodeKind (o : Option Node) : Option Bool := o.map fun n => decide (n.type = .dir)

def nodeCount (o : Option Node) : ℕ := (o.map fun n => n.nlink.toNat).getD 0

/-- The edge of entry `k`. -/
def nodeEdge (o : Option Node) (k : ℕ) : Option ℕ :=
  o.bind fun n => if n.type = .dir ∧ 2 ≤ k ∧ n.Used k then some (n.entry k).inum else none

def nodeUp (o : Option Node) : ℕ :=
  (o.map fun n => if n.type = .dir then (n.entry 1).inum else 0).getD 0

def links (N : ℕ → Option Node) : Links ℕ ℕ where
  kind := fun i => nodeKind (N i)
  count := fun i => nodeCount (N i)
  edge := fun i => nodeEdge (N i)
  up := fun i => nodeUp (N i)

variable {N : ℕ → Option Node} {n m : Node} {d i k : ℕ} {name : Name}

theorem nodeKind_eq_true {o : Option Node} (h : nodeKind o = some true) :
    ∃ n, o = some n ∧ n.type = .dir := by
  cases o with
  | none => cases h
  | some n => exact ⟨n, rfl, by simpa [nodeKind] using h⟩

theorem nodeEdge_some {o : Option Node} (h : nodeEdge o k = some i) :
    ∃ n, o = some n ∧ n.type = .dir ∧ 2 ≤ k ∧ n.Used k ∧ (n.entry k).inum = i := by
  cases o with
  | none => cases h
  | some n =>
    have h : (if n.type = .dir ∧ 2 ≤ k ∧ n.Used k then some (n.entry k).inum else none) = some i :=
      h
    split at h
    · rename_i hc
      exact ⟨n, rfl, hc.1, hc.2.1, hc.2.2, some.inj h⟩
    · cases h

theorem nodeEdge_of (ht : n.type = .dir) (hk : 2 ≤ k) (hu : n.Used k) :
    nodeEdge (some n) k = some (n.entry k).inum := if_pos ⟨ht, hk, hu⟩

/-! ## Directories -/

/-- What a directory looks like. -/
structure DirOk (d : ℕ) (n : Node) : Prop where
  size : n.size % direntSize = 0
  dot : n.Used 0 ∧ (n.entry 0).inum = d ∧ nameOf (n.entry 0).name = nameOf dot.byte
  dotdot : n.Used 1 ∧ nameOf (n.entry 1).name = nameOf dotdot.byte
  distinct : ∀ k k', n.Used k → n.Used k' → nameOf (n.entry k).name = nameOf (n.entry k').name →
    k = k'
  proper : ∀ k, n.Used k → nameOf (n.entry k).name ≠ [] ∧ slash ∉ nameOf (n.entry k).name

theorem used_setEntry (hs : n.size % direntSize = 0) (hi : i ≠ 0) (hi' : i < 2 ^ 16) :
    (n.setEntry n.slot name i).Used k ↔ n.Used k ∨ k = n.slot := by
  have hent := (size_put (f := direntBytes name i) hs n.slot_le).2
  by_cases hk : k = n.slot
  · subst hk
    refine ⟨fun _ => .inr rfl, fun _ => ⟨?_, by rw [inum_setEntry _ _ _ hi']; exact hi⟩⟩
    show n.slot < (n.put _ _ _ _).entries
    rw [hent]
    have := n.slot_le
    split <;> omega
  · unfold Node.Used
    rw [entry_setEntry_ne hk]
    show k < (n.put _ _ _ _).entries ∧ _ ↔ _
    rw [hent]
    constructor
    · rintro ⟨h1, h2⟩
      refine .inl ⟨?_, h2⟩
      split at h1 <;> omega
    · rintro (⟨h1, h2⟩ | h)
      · refine ⟨?_, h2⟩
        split <;> omega
      · exact absurd h hk

theorem used_clearEntry {j : ℕ} (hs : n.size % direntSize = 0) (hk : n.Used k) :
    (n.clearEntry k).Used j ↔ n.Used j ∧ j ≠ k := by
  have hent := (size_put (f := fun _ => 0) hs (Nat.le_of_lt hk.1)).2
  have hlt := hk.1
  rw [if_neg (by omega)] at hent
  by_cases hj : j = k
  · subst hj
    refine ⟨fun h => absurd (inum_clearEntry n j) h.2, fun h => absurd rfl h.2⟩
  · unfold Node.Used
    rw [entry_clearEntry_ne hj]
    show j < (n.put _ _ _ _).entries ∧ _ ↔ _
    rw [hent]
    exact ⟨fun h => ⟨h, hj⟩, fun h => h.1⟩

/-- Entries have distinct names, `.` and `..` in front. -/
structure Named (n : Node) : Prop where
  size : n.size % direntSize = 0
  dot : n.Used 0 ∧ nameOf (n.entry 0).name = nameOf dot.byte
  dotdot : n.Used 1 ∧ nameOf (n.entry 1).name = nameOf dotdot.byte
  distinct : ∀ k k', n.Used k → n.Used k' → nameOf (n.entry k).name = nameOf (n.entry k').name →
    k = k'

namespace Named

theorem two_le_slot (h : Named n) : 2 ≤ n.slot := by
  have h0 := h.dot.1.ne_slot
  have h1 := h.dotdot.1.ne_slot
  omega

/-- An entry with a new name is added. -/
theorem setEntry (h : Named n) (hl : n.lookup name = none) (hi : i ≠ 0) (hi' : i < 2 ^ 16) :
    Named (n.setEntry n.slot name i) := by
  have hslot := h.two_le_slot
  have hused : ∀ {k}, (n.setEntry n.slot name i).Used k ↔ n.Used k ∨ k = n.slot :=
    used_setEntry h.size hi hi'
  have hold : ∀ {k}, k ≠ n.slot → (n.setEntry n.slot name i).entry k = n.entry k := fun hk =>
    entry_setEntry_ne hk name i
  have hnew : nameOf ((n.setEntry n.slot name i).entry n.slot).name = nameOf name.byte :=
    nameOf_setEntry n n.slot name i
  refine ⟨(size_put h.size n.slot_le).1, ?_, ?_, ?_⟩
  · rw [hold (by omega)]
    exact ⟨hused.mpr (.inl h.dot.1), h.dot.2⟩
  · rw [hold (by omega)]
    exact ⟨hused.mpr (.inl h.dotdot.1), h.dotdot.2⟩
  · intro k k' hk hk' he
    rcases hused.mp hk with hk | rfl <;> rcases hused.mp hk' with hk' | rfl
    · rw [hold hk.ne_slot, hold hk'.ne_slot] at he
      exact h.distinct k k' hk hk' he
    · rw [hold hk.ne_slot, hnew] at he
      exact absurd he.symm (lookup_none hl hk)
    · rw [hold hk'.ne_slot, hnew] at he
      exact absurd he (lookup_none hl hk')
    · rfl

theorem clearEntry (h : Named n) (hk : n.Used k) (h2 : 2 ≤ k) : Named (n.clearEntry k) := by
  have hused : ∀ {j}, (n.clearEntry k).Used j ↔ n.Used j ∧ j ≠ k := used_clearEntry h.size hk
  have hold : ∀ {j}, j ≠ k → (n.clearEntry k).entry j = n.entry j := entry_clearEntry_ne
  refine ⟨(size_put h.size (Nat.le_of_lt hk.1)).1, ?_, ?_, ?_⟩
  · rw [hold (by omega)]
    exact ⟨hused.mpr ⟨h.dot.1, by omega⟩, h.dot.2⟩
  · rw [hold (by omega)]
    exact ⟨hused.mpr ⟨h.dotdot.1, by omega⟩, h.dotdot.2⟩
  · intro j j' hj hj' he
    obtain ⟨hj, hjk⟩ := hused.mp hj
    obtain ⟨hj', hjk'⟩ := hused.mp hj'
    rw [hold hjk, hold hjk'] at he
    exact h.distinct j j' hj hj' he

/-- An entry that `dirlookup` finds under another name than `.` and `..`. -/
theorem two_le_of_lookup (h : Named n) (hl : n.lookup name = some k)
    (h0 : nameOf name.byte ≠ nameOf Fs.dot.byte) (h1 : nameOf name.byte ≠ nameOf Fs.dotdot.byte) :
    2 ≤ k := by
  obtain ⟨_, hn⟩ := lookup_some hl
  by_contra hlt
  have hk : k = 0 ∨ k = 1 := by omega
  rcases hk with rfl | rfl
  · exact h0 (hn.trans h.dot.2)
  · exact h1 (hn.trans h.dotdot.2)

end Named

/-! ## Trees -/

structure Tree (N : ℕ → Option Node) : Prop where
  zero : N 0 = none
  dirs : ∀ {d n}, N d = some n → n.type = .dir → DirOk d n
  small : ∀ {i n}, N i = some n → n.nlink.toNat < 2 ^ 15
  ok : (links N).Ok rootIno

theorem links_kind (hi : N i = some n) : (links N).kind i = some (decide (n.type = .dir)) := by
  show nodeKind (N i) = _
  rw [hi]
  rfl

theorem links_kind_none (hi : N i = none) : (links N).kind i = none := by
  show nodeKind (N i) = _
  rw [hi]
  rfl

theorem links_count (hi : N i = some n) : (links N).count i = n.nlink.toNat := by
  show nodeCount (N i) = _
  rw [hi]
  rfl

namespace Tree

/-- The root is there. -/
theorem root (h : Tree N) : ∃ n, N rootIno = some n ∧ n.type = .dir ∧ n.nlink ≠ 0 := by
  obtain ⟨n, hn, ht⟩ := nodeKind_eq_true h.ok.root_kind
  refine ⟨n, hn, ht, fun h0 => h.ok.root_count ?_⟩
  rw [links_count hn, h0]
  rfl

/-- What the entries of a directory name. -/
theorem entry (h : Tree N) (hd : N d = some n) (ht : n.type = .dir) (hk : n.Used k) :
    (k = 0 ∧ (n.entry k).inum = d) ∨
      (k = 1 ∧ ∃ m, N (n.entry k).inum = some m ∧ m.type = .dir ∧ m.nlink ≠ 0) ∨
      (2 ≤ k ∧ (links N).edge d k = some (n.entry k).inum ∧
        ∃ m, N (n.entry k).inum = some m ∧ m.nlink ≠ 0) := by
  have hdk : (links N).kind d = some true := by rw [links_kind hd, decide_eq_true ht]
  have hk3 : k = 0 ∨ k = 1 ∨ 2 ≤ k := by omega
  rcases hk3 with rfl | rfl | h2
  · exact .inl ⟨rfl, (h.dirs hd ht).dot.2.1⟩
  · refine .inr (.inl ⟨rfl, ?_⟩)
    obtain ⟨h1, h2⟩ := h.ok.up_dir hdk
    have hup : (links N).up d = (n.entry 1).inum := by
      show nodeUp (N d) = _
      rw [hd]
      exact if_pos ht
    rw [hup] at h1 h2
    obtain ⟨m, hm, hmt⟩ := nodeKind_eq_true h1
    refine ⟨m, hm, hmt, fun h0 => h2 ?_⟩
    rw [links_count hm, h0]
    rfl
  · have he : (links N).edge d k = some (n.entry k).inum := by
      show nodeEdge (N d) k = _
      rw [hd, nodeEdge_of ht h2 hk]
    obtain ⟨h3, h4⟩ := h.ok.dst he
    refine .inr (.inr ⟨h2, he, ?_⟩)
    cases hm : N (n.entry k).inum with
    | none => exact absurd (links_kind_none hm) h3
    | some m =>
      refine ⟨m, rfl, fun h0 => h4 ?_⟩
      rw [links_count hm, h0]
      rfl

theorem closed (h : Tree N) : Closed N := by
  intro d n k hd ht hk
  rcases h.entry hd ht hk with ⟨_, h1⟩ | ⟨_, m, hm, _, h0⟩ | ⟨_, _, m, hm, h0⟩
  · exact .inl h1
  · exact .inr ⟨m, hm, h0⟩
  · exact .inr ⟨m, hm, h0⟩

/-! ## Entries -/

section

variable (h : Tree N) (hd : N d = some n) (ht : n.type = .dir)

include h hd ht

end

end Tree

end Xv6.Fs
