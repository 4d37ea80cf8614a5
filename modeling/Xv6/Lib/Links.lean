/-
  Directories and link counts, as a graph.

  Vertices are directories or leaves. A directory has entries, which lead to other vertices, and a
  way up to its parent that is not counted as a link. The link count of a leaf is the number of
  entries that lead to it; that of a directory is one more than the number of its subdirectories.
  A vertex may be there without links: it is no entry's target any more, and if it is a directory,
  it is empty.

  `Links.Ok` collects what such a graph keeps: entries lead to vertices with links, a directory has
  one entry that leads to it, in its parent, and every vertex with links is reached from the root.
-/
import Mathlib

namespace Xv6.Lib

open Function Set

structure Links (V K : Type) where
  /-- `some true` for a directory, `some false` for a leaf, none if there is no such vertex. -/
  kind : V → Option Bool
  count : V → ℕ
  edge : V → K → Option V
  up : V → V

namespace Links

variable {V K : Type} {G G' : Links V K} {root d i : V} {k : K}

inductive Reach (G : Links V K) (root : V) : V → Prop
  | root : Reach G root root
  | step {d i : V} {k : K} : Reach G root d → G.edge d k = some i → Reach G root i

/-- The entries that lead to `i`. -/
def into (G : Links V K) (i : V) : Set (V × K) := {p | G.edge p.1 p.2 = some i}

/-- The entries of `d` that lead to directories. -/
def subdirs (G : Links V K) (d : V) : Set K := {k | ∃ i, G.edge d k = some i ∧ G.kind i = some true}

structure Ok (G : Links V K) (root : V) : Prop where
  root_kind : G.kind root = some true
  root_count : G.count root ≠ 0
  src : ∀ {d k i}, G.edge d k = some i → G.kind d = some true
  dst : ∀ {d k i}, G.edge d k = some i → G.kind i ≠ none ∧ G.count i ≠ 0
  dst_dir : ∀ {d k i}, G.edge d k = some i → G.kind i = some true → i ≠ root ∧ G.up i = d
  single : ∀ {d k k' i}, G.edge d k = some i → G.edge d k' = some i → G.kind i = some true → k = k'
  up_root : G.up root = root
  up_dir : ∀ {d}, G.kind d = some true → G.kind (G.up d) = some true ∧ G.count (G.up d) ≠ 0
  orphan : ∀ {d}, G.kind d = some true → G.count d = 0 → ∀ k, G.edge d k = none
  leaf : ∀ {i}, G.kind i = some false → (G.into i).encard = G.count i
  dir : ∀ {d}, G.kind d = some true → G.count d ≠ 0 → (G.subdirs d).encard + 1 = G.count d
  reach : ∀ {i}, G.kind i ≠ none → G.count i ≠ 0 → G.Reach root i

namespace Ok

/-- A root without entries, and nothing else. -/
theorem bare (hroot : G.kind root = some true) (hcount : G.count root = 1) (hup : G.up root = root)
    (hone : ∀ {i}, G.kind i ≠ none → i = root) (hedge : ∀ d k, G.edge d k = none) : G.Ok root := by
  have hkind : ∀ {i b}, G.kind i = some b → i = root ∧ b = true := by
    intro i b hb
    obtain rfl := hone (by rw [hb]; exact nofun)
    exact ⟨rfl, Option.some.inj (hb.symm.trans hroot)⟩
  have hno : ∀ {d k i}, G.edge d k ≠ some i := by
    intro d k i he
    rw [hedge] at he
    cases he
  have hsub : G.subdirs root = ∅ := eq_empty_of_forall_notMem fun k ⟨_, he, _⟩ => hno he
  refine ⟨hroot, by rw [hcount]; exact Nat.one_ne_zero, fun he => absurd he hno, fun he =>
    absurd he hno,
    fun he => absurd he hno, fun he => absurd he hno, hup, fun hd => ?_, fun _ _ k => hedge _ k,
    fun hi => (nomatch (hkind hi).2), fun hd _ => ?_, fun hi _ => ?_⟩
  · rw [(hkind hd).1, hup, hcount]
    exact ⟨hroot, Nat.one_ne_zero⟩
  · rw [(hkind hd).1, hsub, hcount, encard_empty]
    rfl
  · rw [hone hi]
    exact .root

end Ok

end Links

end Xv6.Lib
