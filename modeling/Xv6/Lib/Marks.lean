/-
  Owners of the numbers that a bit map marks.

  Keys own numbers; 0 stands for none. The map is exact when the marked numbers of a range are
  those that some key owns, and no number has two owners. Numbers below the range are always
  marked. A number that is not marked can be given to a key that owns none, and an owner can give
  its number back.
-/
import Mathlib

namespace Xv6.Lib

open Function

variable {κ : Type}

structure Exact (lo hi : ℕ) (own : κ → ℕ) (bit : ℕ → Bool) : Prop where
  pos : 0 < lo
  range : ∀ k, own k ≠ 0 → lo ≤ own k ∧ own k < hi
  inj : ∀ k k', own k ≠ 0 → own k = own k' → k = k'
  marked : ∀ k, own k ≠ 0 → bit (own k) = true
  used : ∀ b, lo ≤ b → b < hi → bit b = true → ∃ k, own k = b
  low : ∀ b, b < lo → bit b = true

namespace Exact

variable {lo hi : ℕ} {own : κ → ℕ} {bit : ℕ → Bool} {k : κ} {b : ℕ}

theorem le_of_clear (h : Exact lo hi own bit) (hb : bit b = false) : lo ≤ b := by
  by_contra hlt
  rw [h.low b (Nat.lt_of_not_le hlt)] at hb
  cases hb

theorem ne_of_clear (h : Exact lo hi own bit) (hb : bit b = false) : b ≠ 0 :=
  Nat.ne_of_gt (Nat.lt_of_lt_of_le h.pos (h.le_of_clear hb))

/-- Nobody owns a number that is not marked. -/
theorem own_ne_of_clear (h : Exact lo hi own bit) (hb : bit b = false) (k : κ) : own k ≠ b := by
  intro hk
  have hm := h.marked k (hk ▸ h.ne_of_clear hb)
  rw [hk, hb] at hm
  cases hm

theorem bit_iff (h : Exact lo hi own bit) (hb : b < hi) :
    bit b = true ↔ b < lo ∨ ∃ k, own k = b := by
  constructor
  · intro hbit
    by_cases hlo : b < lo
    · exact .inl hlo
    · exact .inr (h.used b (Nat.le_of_not_lt hlo) hb hbit)
  · rintro (hlo | ⟨k, rfl⟩)
    · exact h.low b hlo
    · by_cases h0 : own k = 0
      · rw [h0]
        exact h.low 0 h.pos
      · exact h.marked k h0

/-- The owners in `P` give up what they own: exactly that is clear afterwards. -/
theorem sweep {own' : κ → ℕ} {bit' : ℕ → Bool} {P : κ → Prop} (h : Exact lo hi own bit)
    (h' : Exact lo hi own' bit') (hgone : ∀ k, P k → own' k = 0)
    (hkept : ∀ k, ¬P k → own' k = own k)
    (hb : b < hi) : bit' b = true ↔ bit b = true ∧ ¬∃ k, P k ∧ b ≠ 0 ∧ own k = b := by
  rw [h'.bit_iff hb, h.bit_iff hb]
  constructor
  · rintro (hlo | ⟨k, hk⟩)
    · refine ⟨.inl hlo, ?_⟩
      rintro ⟨k, _, h0, rfl⟩
      exact Nat.not_lt.mpr (h.range k h0).1 hlo
    · by_cases h0 : b = 0
      · exact ⟨.inl (h0 ▸ h.pos), fun ⟨_, _, hne, _⟩ => hne h0⟩
      · have hP : ¬P k := fun hP => h0 (by rw [← hk, hgone k hP])
        rw [hkept k hP] at hk
        refine ⟨.inr ⟨k, hk⟩, ?_⟩
        rintro ⟨k', hP', _, hk'⟩
        rw [h.inj k' k (by rwa [hk']) (hk'.trans hk.symm)] at hP'
        exact hP hP'
  · rintro ⟨hlo | ⟨k, hk⟩, hno⟩
    · exact .inl hlo
    · by_cases h0 : b = 0
      · exact .inl (h0 ▸ h.pos)
      · exact .inr ⟨k, by rw [hkept k fun hP => hno ⟨k, hP, h0, hk⟩, hk]⟩

variable [DecidableEq κ]

theorem add (h : Exact lo hi own bit) (hk : own k = 0) (hb : bit b = false) (hlt : b < hi) :
    Exact lo hi (update own k b) (update bit b true) where
  pos := h.pos
  range := by
    intro k' hk'
    by_cases he : k' = k
    · rw [he, update_self]
      exact ⟨h.le_of_clear hb, hlt⟩
    · rw [update_of_ne he] at hk' ⊢
      exact h.range k' hk'
  inj := by
    intro k1 k2 h1 h2
    by_cases e1 : k1 = k <;> by_cases e2 : k2 = k
    · rw [e1, e2]
    · rw [e1, update_self, update_of_ne e2] at h2
      exact absurd h2.symm (h.own_ne_of_clear hb k2)
    · rw [e2, update_self, update_of_ne e1] at h2
      exact absurd h2 (h.own_ne_of_clear hb k1)
    · rw [update_of_ne e1] at h1 h2
      rw [update_of_ne e2] at h2
      exact h.inj k1 k2 h1 h2
  marked := by
    intro k' hk'
    by_cases he : k' = k
    · rw [he, update_self, update_self]
    · rw [update_of_ne he] at hk' ⊢
      rw [update_of_ne (h.own_ne_of_clear hb k')]
      exact h.marked k' hk'
  used := by
    intro b' h1 h2 h3
    by_cases he : b' = b
    · exact ⟨k, by rw [update_self, he]⟩
    · rw [update_of_ne he] at h3
      obtain ⟨k', hk'⟩ := h.used b' h1 h2 h3
      have hne : k' ≠ k := by
        rintro rfl
        have := h.pos
        omega
      exact ⟨k', by rw [update_of_ne hne]; exact hk'⟩
  low := by
    intro b' hlt'
    by_cases he : b' = b
    · rw [he, update_self]
    · rw [update_of_ne he]
      exact h.low b' hlt'

theorem drop (h : Exact lo hi own bit) (hk : own k ≠ 0) :
    Exact lo hi (update own k 0) (update bit (own k) false) where
  pos := h.pos
  range := by
    intro k' hk'
    by_cases he : k' = k
    · rw [he, update_self] at hk'
      exact absurd rfl hk'
    · rw [update_of_ne he] at hk' ⊢
      exact h.range k' hk'
  inj := by
    intro k1 k2 h1 h2
    have e1 : k1 ≠ k := by
      rintro rfl
      rw [update_self] at h1
      exact h1 rfl
    have e2 : k2 ≠ k := by
      rintro rfl
      rw [update_self] at h2
      exact h1 h2
    rw [update_of_ne e1] at h1 h2
    rw [update_of_ne e2] at h2
    exact h.inj k1 k2 h1 h2
  marked := by
    intro k' hk'
    have he : k' ≠ k := by
      rintro rfl
      rw [update_self] at hk'
      exact hk' rfl
    rw [update_of_ne he] at hk' ⊢
    have hne : own k' ≠ own k := fun hn => he (h.inj k' k hk' hn)
    rw [update_of_ne hne]
    exact h.marked k' hk'
  used := by
    intro b' h1 h2 h3
    have hne : b' ≠ own k := by
      rintro rfl
      rw [update_self] at h3
      cases h3
    rw [update_of_ne hne] at h3
    obtain ⟨k', hk'⟩ := h.used b' h1 h2 h3
    have he : k' ≠ k := by
      rintro rfl
      exact hne hk'.symm
    exact ⟨k', by rw [update_of_ne he]; exact hk'⟩
  low := by
    intro b' hlt
    have hne : b' ≠ own k := by
      have := (h.range k hk).1
      omega
    rw [update_of_ne hne]
    exact h.low b' hlt

end Exact

end Xv6.Lib
