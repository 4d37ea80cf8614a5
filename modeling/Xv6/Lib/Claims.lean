/-
  Things that are claimed.

  Keys claim things, each key at most one. The claims are exact for a set of things when no two keys
  claim the same one, and the things of the set are those that somebody claims. A claim can pass
  from one key to another, and a thing can enter and leave the set together with its claim.
-/
import Mathlib

namespace Xv6.Lib

open Function

variable {κ ε : Type}

structure Claimed (claim : κ → Option ε) (S : ε → Prop) : Prop where
  inj : ∀ j k e, claim j = some e → claim k = some e → j = k
  iff : ∀ e, S e ↔ ∃ k, claim k = some e

namespace Claimed

variable [DecidableEq κ] {claim : κ → Option ε} {S : ε → Prop} {j k : κ} {e : ε}

theorem update_eq_some {v : Option ε} :
    update claim k v j = some e ↔ (j = k ∧ v = some e) ∨ (j ≠ k ∧ claim j = some e) := by
  by_cases hj : j = k
  · rw [hj, update_self]
    simp
  · rw [update_of_ne hj]
    simp [hj]

theorem add (h : Claimed claim S) (hk : claim k = none) (he : ¬ S e) :
    Claimed (update claim k (some e)) fun x => x = e ∨ S x where
  inj := by
    intro i j x hi hj
    rcases update_eq_some.mp hi with ⟨hik, hx⟩ | ⟨-, hi'⟩ <;>
      rcases update_eq_some.mp hj with ⟨hjk, hx'⟩ | ⟨-, hj'⟩
    · rw [hik, hjk]
    · exact absurd ((h.iff e).mpr ⟨j, hj'.trans hx.symm⟩) he
    · exact absurd ((h.iff e).mpr ⟨i, hi'.trans hx'.symm⟩) he
    · exact h.inj i j x hi' hj'
  iff := by
    intro x
    constructor
    · rintro (rfl | hx)
      · exact ⟨k, update_self ..⟩
      · obtain ⟨j, hj⟩ := (h.iff x).mp hx
        refine ⟨j, update_eq_some.mpr (.inr ⟨?_, hj⟩)⟩
        rintro rfl
        rw [hk] at hj
        cases hj
    · rintro ⟨j, hj⟩
      rcases update_eq_some.mp hj with ⟨-, hx⟩ | ⟨-, hj⟩
      · exact .inl (Option.some.inj hx).symm
      · exact .inr ((h.iff x).mpr ⟨j, hj⟩)

theorem drop (h : Claimed claim S) (hk : claim k = some e) :
    Claimed (update claim k none) fun x => x ≠ e ∧ S x where
  inj := by
    intro i j x hi hj
    rcases update_eq_some.mp hi with ⟨-, hx⟩ | ⟨-, hi⟩
    · cases hx
    · rcases update_eq_some.mp hj with ⟨-, hx⟩ | ⟨-, hj⟩
      · cases hx
      · exact h.inj i j x hi hj
  iff := by
    intro x
    constructor
    · rintro ⟨hne, hx⟩
      obtain ⟨j, hj⟩ := (h.iff x).mp hx
      refine ⟨j, update_eq_some.mpr (.inr ⟨?_, hj⟩)⟩
      rintro rfl
      exact hne (Option.some.inj (hj.symm.trans hk))
    · rintro ⟨j, hj⟩
      rcases update_eq_some.mp hj with ⟨-, hx⟩ | ⟨hne, hj⟩
      · cases hx
      · refine ⟨?_, (h.iff x).mpr ⟨j, hj⟩⟩
        rintro rfl
        exact hne (h.inj j k x hj hk)

/-- A claim passes from one key to another. -/
theorem move (h : Claimed claim S) (hj : claim j = some e) (hk : claim k = none) :
    Claimed (update (update claim j none) k (some e)) S := by
  have hk' : update claim j none k = none := by
    by_cases hjk : k = j
    · rw [hjk, update_self]
    · rw [update_of_ne hjk, hk]
  have hadd := (h.drop hj).add hk' fun hx => hx.1 rfl
  refine ⟨hadd.inj, fun x => ?_⟩
  rw [← hadd.iff x]
  constructor
  · intro hx
    by_cases hxe : x = e
    · exact .inl hxe
    · exact .inr ⟨hxe, hx⟩
  · rintro (rfl | ⟨-, hx⟩)
    · exact (h.iff x).mpr ⟨j, hj⟩
    · exact hx

omit [DecidableEq κ] in
theorem congr {claim' : κ → Option ε} {S' : ε → Prop} (h : Claimed claim S) (hc : claim' = claim)
    (hS : ∀ e, S' e ↔ S e) : Claimed claim' S' := by
  subst hc
  exact ⟨h.inj, fun e => (hS e).trans (h.iff e)⟩

end Claimed

end Xv6.Lib
