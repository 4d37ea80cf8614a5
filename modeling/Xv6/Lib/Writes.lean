/-
  A list of writes applied to a map, oldest first. The last write to a key wins; a key that
  is not written keeps its value. Used as the reference meaning of a transaction.
-/
import Mathlib

namespace Xv6.Lib

open Function

variable {κ α : Type} [DecidableEq κ]

/-- Applies the writes `ws` to `m`, oldest first. -/
def applyWrites (ws : List (κ × α)) (m : κ → α) : κ → α :=
  ws.foldl (fun m w => update m w.1 w.2) m

@[simp] theorem applyWrites_nil (m : κ → α) : applyWrites [] m = m := rfl

theorem applyWrites_snoc (ws : List (κ × α)) (k : κ) (v : α) (m : κ → α) :
    applyWrites (ws ++ [(k, v)]) m = update (applyWrites ws m) k v := by
  simp [applyWrites]

/-- A key that is not written keeps its value. -/
theorem applyWrites_of_not_mem {ws : List (κ × α)} {k : κ} (h : k ∉ ws.map Prod.fst) (m : κ → α) :
    applyWrites ws m k = m k := by
  induction ws generalizing m with
  | nil => rfl
  | cons w ws ih =>
    rw [List.map_cons, List.mem_cons, not_or] at h
    have hw : applyWrites (w :: ws) m = applyWrites ws (update m w.1 w.2) := rfl
    rw [hw, ih h.2, update_of_ne h.1]

/-- Applies whole groups of writes in order. -/
def applyAll (ts : List (List (κ × α))) (m : κ → α) : κ → α :=
  ts.foldl (fun m ws => applyWrites ws m) m

theorem applyAll_snoc (ts : List (List (κ × α))) (ws : List (κ × α)) (m : κ → α) :
    applyAll (ts ++ [ws]) m = applyWrites ws (applyAll ts m) := by
  simp [applyAll]

end Xv6.Lib
