/-
  Ring buffers with free-running counters.

  A ring has `c` cells and two counters of `w` bits, the elements taken and the elements put,
  that are never reduced and wrap at 2^w. When `c` divides 2^w the cell of an element does not
  depend on how often they have wrapped, and the ring represents a list: `push` appends to it
  and `pop` takes its head.
-/
import Mathlib

namespace Xv6.Lib

open Function List BitVec

structure Ring (α : Type) (c w : ℕ) where
  data : Fin c → α
  nread : BitVec w
  nwrite : BitVec w

namespace Ring

variable {α : Type} {c w : ℕ} [NeZero c]

/-- The cell that a counter points to. -/
def cell (c : ℕ) [NeZero c] (n : BitVec w) : Fin c := Fin.ofNat c n.toNat

/-- The number of elements in the ring. -/
def len (r : Ring α c w) : ℕ := (r.nwrite - r.nread).toNat

/-- The elements in the ring, the oldest first. -/
def contents (r : Ring α c w) : List α :=
  (List.range r.len).map fun k => r.data (cell c (r.nread + BitVec.ofNat w k))

def push (r : Ring α c w) (x : α) : Ring α c w :=
  { r with data := update r.data (cell c r.nwrite) x, nwrite := r.nwrite + 1#w }

/-- The oldest element. -/
def head (r : Ring α c w) : α := r.data (cell c r.nread)

def pop (r : Ring α c w) : Ring α c w := { r with nread := r.nread + 1#w }

/-- The newest element. -/
def last (r : Ring α c w) : α := r.data (cell c (r.nwrite - 1#w))

/-- The newest element is taken back. -/
def unpush (r : Ring α c w) : Ring α c w := { r with nwrite := r.nwrite - 1#w }

variable {r : Ring α c w}

omit [NeZero c] in
theorem len_eq_zero : r.len = 0 ↔ r.nread = r.nwrite := by
  unfold len
  rw [toNat_sub]
  constructor
  · intro h
    apply eq_of_toNat_eq
    have h1 := r.nread.isLt
    have h2 := r.nwrite.isLt
    rcases Nat.lt_or_ge (2 ^ w - r.nread.toNat + r.nwrite.toNat) (2 ^ w) with hlt | hge
    · rw [Nat.mod_eq_of_lt hlt] at h
      omega
    · rw [Nat.mod_eq_sub_mod hge, Nat.mod_eq_of_lt (by omega)] at h
      omega
  · intro h
    rw [h]
    have h2 := r.nwrite.isLt
    rw [show 2 ^ w - r.nwrite.toNat + r.nwrite.toNat = 2 ^ w by omega, Nat.mod_self]

omit [NeZero c] in
theorem nwrite_eq : r.nwrite = r.nread + BitVec.ofNat w r.len := by
  unfold len
  rw [ofNat_toNat, setWidth_eq, add_comm, sub_add_cancel]

omit [NeZero c] in
/-- The test for a full ring. -/
theorem len_eq_iff (hc : c < 2 ^ w) : r.len = c ↔ r.nwrite = r.nread + BitVec.ofNat w c := by
  constructor
  · intro h
    have := nwrite_eq (r := r)
    rwa [h] at this
  · intro h
    unfold len
    rw [h, add_comm, add_sub_cancel, toNat_ofNat, Nat.mod_eq_of_lt hc]

theorem len_push (x : α) (hlen : r.len + 1 < 2 ^ w) : (r.push x).len = r.len + 1 := by
  have h : (r.push x).nwrite - (r.push x).nread = (r.nwrite - r.nread) + 1#w := by
    show r.nwrite + 1#w - r.nread = _
    rw [sub_eq_add_neg, sub_eq_add_neg, add_assoc, add_assoc, add_comm 1#w]
  unfold len at hlen ⊢
  rw [h, toNat_add]
  have hone : (1#w).toNat = 1 := by
    refine toNat_one ?_
    by_contra hw
    have : w = 0 := by omega
    subst this
    simp at hlen
  rw [hone, Nat.mod_eq_of_lt hlen]

theorem toNat_sub_one {x : BitVec w} (h : x.toNat ≠ 0) : (x - 1#w).toNat = x.toNat - 1 := by
  have hlt := x.isLt
  have hw : 1 < 2 ^ w := by omega
  have hone : (1#w).toNat = 1 := by
    refine toNat_one (Nat.pos_of_ne_zero ?_)
    rintro rfl
    simp at hw
  rw [toNat_sub, hone, show 2 ^ w - 1 + x.toNat = (x.toNat - 1) + 2 ^ w by omega, Nat.add_mod_right,
    Nat.mod_eq_of_lt (by omega)]

omit [NeZero c] in
theorem len_pop (hlen : r.len ≠ 0) : r.pop.len = r.len - 1 := by
  have h : r.pop.nwrite - r.pop.nread = (r.nwrite - r.nread) - 1#w := by
    show r.nwrite - (r.nread + 1#w) = _
    rw [sub_eq_add_neg, sub_eq_add_neg, sub_eq_add_neg, neg_add, sub_eq_add_neg, add_assoc]
  unfold len at hlen ⊢
  rw [h, toNat_sub_one hlen]

omit [NeZero c] in
theorem len_unpush (hlen : r.len ≠ 0) : r.unpush.len = r.len - 1 := by
  have h : r.unpush.nwrite - r.unpush.nread = (r.nwrite - r.nread) - 1#w := by
    show r.nwrite - 1#w - r.nread = _
    rw [sub_eq_add_neg, sub_eq_add_neg, sub_eq_add_neg, sub_eq_add_neg, add_assoc, add_comm (-1#w),
      add_assoc]
  unfold len at hlen ⊢
  rw [h, toNat_sub_one hlen]

/-- The counter's cell, although the counter wraps. -/
theorem cell_add (hd : c ∣ 2 ^ w) (n : BitVec w) (k : ℕ) :
    (cell c (n + BitVec.ofNat w k)).val = (n.toNat + k) % c := by
  unfold cell
  rw [Fin.val_ofNat, toNat_add, toNat_ofNat, Nat.add_mod_mod, Nat.mod_mod_of_dvd _ hd]

/-- Different elements of the ring are in different cells. -/
theorem cell_ne (hd : c ∣ 2 ^ w) (n : BitVec w) {k k' : ℕ} (hk : k < k') (hk' : k' < k + c) :
    cell c (n + BitVec.ofNat w k) ≠ cell c (n + BitVec.ofNat w k') := by
  intro h
  have hv := congrArg Fin.val h
  rw [cell_add hd, cell_add hd] at hv
  have hdvd : c ∣ (n.toNat + k') - (n.toNat + k) := (Nat.modEq_iff_dvd' (by omega)).mp hv
  have := Nat.le_of_dvd (by omega) hdvd
  omega

theorem contents_push (hd : c ∣ 2 ^ w) (hc : c < 2 ^ w) (x : α) (hlen : r.len < c) :
    (r.push x).contents = r.contents ++ [x] := by
  unfold contents
  rw [len_push x (by omega), range_succ, map_append, map_singleton]
  have hold : ∀ k ∈ List.range r.len, (r.push x).data
    (cell c ((r.push x).nread + BitVec.ofNat w k)) =
        r.data (cell c (r.nread + BitVec.ofNat w k)) := by
    intro k hk
    have hk := List.mem_range.mp hk
    show update r.data (cell c r.nwrite) x (cell c (r.nread + BitVec.ofNat w k)) = _
    rw [update_of_ne]
    rw [nwrite_eq (r := r)]
    exact cell_ne hd r.nread hk (by omega)
  have hnew : (r.push x).data (cell c ((r.push x).nread + BitVec.ofNat w r.len)) = x := by
    show update r.data (cell c r.nwrite) x (cell c (r.nread + BitVec.ofNat w r.len)) = x
    rw [← nwrite_eq, update_self]
  rw [map_congr_left hold, hnew]

/-- A cell outside the ring changes. -/
theorem contents_update (hd : c ∣ 2 ^ w) {j : Fin c} {k : ℕ}
    (hj : j = cell c (r.nread + BitVec.ofNat w k))
    (hk : r.len ≤ k) (hk' : k < c) (x : α) :
    ({ r with data := update r.data j x } : Ring α c w).contents = r.contents := by
  refine map_congr_left fun k' hk'' => ?_
  have hlt : k' < r.len := List.mem_range.mp hk''
  show update r.data j x (cell c (r.nread + BitVec.ofNat w k')) = _
  rw [hj, update_of_ne (cell_ne hd r.nread (by omega) (by omega))]

/-- A counter between the two divides the ring. -/
theorem contents_split (m : BitVec w)
    (h : ({ r with nwrite := m } : Ring α c w).len + ({ r with nread := m } : Ring α c w).len =
      r.len) :
    r.contents = ({ r with nwrite := m } : Ring α c w).contents ++
      ({ r with nread := m } : Ring α c w).contents := by
  have hm : m = r.nread + BitVec.ofNat w ({ r with nwrite := m } : Ring α c w).len :=
    nwrite_eq (r := { r with nwrite := m })
  unfold contents
  rw [← h, range_add, map_append, map_map]
  congr 1
  refine map_congr_left fun k _ => ?_
  show r.data (cell c (r.nread + BitVec.ofNat w (_ + k))) = r.data (cell c (m + BitVec.ofNat w k))
  rw [ofNat_add, ← add_assoc, ← hm]

theorem contents_pop (hlen : r.len ≠ 0) : r.contents = r.head :: r.pop.contents := by
  obtain ⟨m, hm⟩ := Nat.exists_eq_succ_of_ne_zero hlen
  unfold contents
  rw [len_pop hlen, hm, Nat.succ_sub_one, range_succ_eq_map, map_cons, map_map]
  congr 1
  · show r.data (cell c (r.nread + BitVec.ofNat w 0)) = r.data (cell c r.nread)
    rw [BitVec.add_zero]
  · refine map_congr_left fun k _ => ?_
    show r.data (cell c (r.nread + BitVec.ofNat w (k + 1))) =
      r.data (cell c (r.nread + 1#w + BitVec.ofNat w k))
    rw [BitVec.ofNat_add, BitVec.add_comm (BitVec.ofNat w k), BitVec.add_assoc]

theorem contents_eq_nil (h : r.nread = r.nwrite) : r.contents = [] := by
  unfold contents
  rw [len_eq_zero.mpr h]
  rfl

end Ring

end Xv6.Lib
