/-
  Programs over a state that may stop.

  A program takes a state and returns a result and the new state, or it stops with a reason (a
  panic). `wp m Q E s` says that from `s` the program ends with `Q`, or stops for a reason in
  `E`. Specifications are stated with `wp` in continuation style: what is to hold after the
  program is a hypothesis about every result that it can have.
-/
import Mathlib

namespace Xv6.Lib

abbrev Act (σ ε : Type) := StateT σ (Except ε)

namespace Act

variable {σ τ ε α β : Type}

def stop (e : ε) : Act σ ε α := fun _ => .error e

def wp (m : Act σ ε α) (Q : α → σ → Prop) (E : ε → Prop) (s : σ) : Prop :=
  match m s with
  | .ok r => Q r.1 r.2
  | .error e => E e

variable {m : Act σ ε α} {f : α → Act σ ε β} {Q Q' : α → σ → Prop} {R : β → σ → Prop}
  {E E' : ε → Prop} {s : σ}

theorem wp_pure {a : α} : wp (pure a) Q E s ↔ Q a s := Iff.rfl

theorem wp_stop {e : ε} : wp (stop e : Act σ ε α) Q E s ↔ E e := Iff.rfl

theorem wp_set {s' : σ} {Q : PUnit → σ → Prop} : wp (set s' : Act σ ε PUnit) Q E s ↔ Q ⟨⟩ s' :=
  Iff.rfl

theorem wp_modify {g : σ → σ} {Q : PUnit → σ → Prop} :
    wp (modify g : Act σ ε PUnit) Q E s ↔ Q ⟨⟩ (g s) := Iff.rfl

theorem wp_bind : wp (m >>= f) R E s ↔ wp m (fun a s' => wp (f a) R E s') E s := by
  show (match (m s >>= fun r => f r.1 r.2) with | .ok r => R r.1 r.2 | .error e => E e) ↔ _
  unfold wp
  cases m s <;> rfl

theorem wp_mono (h : wp m Q E s) (hQ : ∀ a s', Q a s' → Q' a s') (hE : ∀ e, E e → E' e) :
    wp m Q' E' s := by
  unfold wp at h ⊢
  cases hm : m s with
  | ok r =>
    rw [hm] at h
    exact hQ _ _ h
  | error e =>
    rw [hm] at h
    exact hE _ h

theorem wp_and (h : wp m Q E s) (h' : wp m Q' E s) : wp m (fun a s' => Q a s' ∧ Q' a s') E s := by
  unfold wp at *
  cases hm : m s with
  | ok r =>
    rw [hm] at h h'
    exact ⟨h, h'⟩
  | error e =>
    rw [hm] at h
    exact h

/-- The sequencing rule in continuation style. -/
theorem wp_seq (h : wp m (fun a s' => wp (f a) R E s') E s) : wp (m >>= f) R E s := wp_bind.mpr h

/-- The state is read, and the program goes on with it. -/
theorem wp_read {f : σ → Act σ ε β} (h : wp (f s) R E s) : wp (get >>= f) R E s := wp_bind.mpr h

theorem wp_ok (h : wp m Q E s) {a : α} {s' : σ} (hm : m s = .ok (a, s')) : Q a s' := by
  unfold wp at h
  rw [hm] at h
  exact h

theorem wp_error (h : wp m Q E s) {e : ε} (hm : m s = .error e) : E e := by
  unfold wp at h
  rw [hm] at h
  exact h

/-- A program that stops for no reason returns. -/
theorem wp_returns (h : wp m Q (fun _ => False) s) : ∃ a s', m s = .ok (a, s') ∧ Q a s' := by
  unfold wp at h
  cases hm : m s with
  | ok r =>
    rw [hm] at h
    exact ⟨r.1, r.2, rfl, h⟩
  | error e =>
    rw [hm] at h
    exact h.elim

theorem wp_of_ok {a : α} {s' : σ} (hm : m s = .ok (a, s')) (h : Q a s') : wp m Q E s := by
  unfold wp
  rw [hm]
  exact h

/-- What a program that returns gives. -/
theorem wp_eq_ok {a : α} {s' : σ} (h : wp m (fun b s'' => b = a ∧ s'' = s') (fun _ => False) s) :
    m s = .ok (a, s') := by
  obtain ⟨b, s'', hm, rfl, rfl⟩ := wp_returns h
  exact hm

theorem bind_ok {a : α} {s' : σ} (hm : m s = .ok (a, s')) : (m >>= f) s = f a s' := by
  change Except.bind (m s) _ = _
  rw [hm]
  rfl

theorem bind_eq_ok {b : β} {s' : σ} (h : (m >>= f) s = .ok (b, s')) :
    ∃ a s1, m s = .ok (a, s1) ∧ f a s1 = .ok (b, s') := by
  cases hm : m s with
  | ok r => exact ⟨r.1, r.2, rfl, (bind_ok hm).symm.trans h⟩
  | error e =>
    change Except.bind (m s) _ = _ at h
    rw [hm] at h
    cases h

instance [DecidableEq ε] (x : Except ε α) (e : ε) : Decidable (x = .error e) :=
  match x with
  | .ok _ => isFalse nofun
  | .error e' => decidable_of_iff (e' = e) ⟨congrArg _, fun h => Except.error.inj h⟩

/-! ## A part of the state -/

/-- Run a program on the part of the state that `g` reads and `p` replaces. -/
def zoom (g : τ → σ) (p : τ → σ → τ) (m : Act σ ε α) : Act τ ε α := fun t =>
  match m (g t) with
  | .ok (a, s) => .ok (a, p t s)
  | .error e => .error e

end Act

end Xv6.Lib
