/-
  Sums over finitely many threads.

  A count that is the sum of what the threads hold changes by what one thread takes or gives, and
  it bounds what any two of them hold.
-/
import Mathlib

namespace Xv6.Lib

open Finset

variable {T : Type} [Fintype T] [DecidableEq T]

/-- A sum in which one term changes. -/
theorem sum_change {M : Type} [AddCommMonoid M] {t : T} {f g : T → M}
    (h : ∀ u, u ≠ t → g u = f u) : (∑ u, g u) + f t = (∑ u, f u) + g t := by
  have hrest : ∑ u ∈ Finset.univ.erase t, g u = ∑ u ∈ Finset.univ.erase t, f u :=
    sum_congr rfl fun u hu => h u (ne_of_mem_erase hu)
  rw [← add_sum_erase _ g (mem_univ t), ← add_sum_erase _ f (mem_univ t), hrest]
  abel

omit [DecidableEq T] in
theorem le_sum (f : T → ℕ) (t : T) : f t ≤ ∑ u, f u :=
  single_le_sum (fun _ _ => Nat.zero_le _) (mem_univ t)

theorem add_le_sum (f : T → ℕ) {t u : T} (h : t ≠ u) : f t + f u ≤ ∑ v, f v := by
  have hle := sum_le_univ_sum_of_nonneg (s := {t, u}) (f := f) fun _ => Nat.zero_le _
  rwa [sum_pair h] at hle

end Xv6.Lib
