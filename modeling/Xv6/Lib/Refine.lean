/-
  Runs that show something, and when what they show is a run of a simpler system.

  `Shows step obs s₀ es tr s`: the events `es` lead from `s₀` to `s` and show `tr`. A relation `R`
  to the states of another system that every step keeps, with the other system taking the steps
  that are shown, makes `tr` a run of the other system.
-/
import Xv6.Lib.Run

namespace Xv6.Lib

variable {σ ε ω α : Type}

inductive Shows (step : σ → ε → σ → Prop) (obs : σ → ε → List ω) (s₀ : σ) :
    List ε → List ω → σ → Prop
  | nil : Shows step obs s₀ [] [] s₀
  | snoc {es : List ε} {tr : List ω} {s s' : σ} {e : ε} (h : Shows step obs s₀ es tr s)
      (hs : step s e s') :
      Shows step obs s₀ (es ++ [e]) (tr ++ obs s e) s'

variable {step : σ → ε → σ → Prop} {obs : σ → ε → List ω} {s₀ s : σ} {es : List ε} {tr : List ω}

theorem Run.shows (h : Run step s₀ es s) : ∃ tr, Shows step obs s₀ es tr s := by
  induction h with
  | nil => exact ⟨[], .nil⟩
  | snoc _ hs ih =>
    obtain ⟨tr, h⟩ := ih
    exact ⟨_, h.snoc hs⟩

theorem Shows.refines {spec : α → ω → α → Prop} {R : σ → α → Prop} {a0 : α} (h0 : R s₀ a0)
    (hstep : ∀ s e s' a, R s a → step s e s' → ∃ a', Run spec a (obs s e) a' ∧ R s' a')
    (h : Shows step obs s₀ es tr s) : ∃ a, Run spec a0 tr a ∧ R s a := by
  induction h with
  | nil => exact ⟨a0, .nil, h0⟩
  | snoc _ hs ih =>
    obtain ⟨a, hrun, hr⟩ := ih
    obtain ⟨a', hrun', hr'⟩ := hstep _ _ _ a hr hs
    exact ⟨a', hrun.append hrun', hr'⟩

end Xv6.Lib
