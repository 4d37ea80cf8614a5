/-
  Runs of a labelled step relation, and the two induction rules the safety proofs use.

  `Run step s₀ tr s`: the events `tr`, oldest first, lead from `s₀` to `s`. `Run.inv` carries
  an invariant that may mention the history. `Where ok step` keeps only the steps that meet
  `ok` in the state they start from, so a statement about the runs whose steps all meet a
  condition is a statement about `Run (Where ok step)`.
-/
import Mathlib

namespace Xv6.Lib

variable {σ ε : Type}

/-- The events `tr` (oldest first) lead from `s₀` to the last argument. -/
inductive Run (step : σ → ε → σ → Prop) (s₀ : σ) : List ε → σ → Prop
  | nil : Run step s₀ [] s₀
  | snoc {tr : List ε} {s s' : σ} {e : ε} (h : Run step s₀ tr s) (hs : step s e s') :
      Run step s₀ (tr ++ [e]) s'

/-- The steps of `step` that meet `ok` in the state they start from. -/
def Where (ok : σ → ε → Prop) (step : σ → ε → σ → Prop) : σ → ε → σ → Prop :=
  fun s e s' => ok s e ∧ step s e s'

/-- The step relation of a partial step function. -/
def Fires (f : σ → ε → Option σ) : σ → ε → σ → Prop :=
  fun s e s' => f s e = some s'

namespace Run

variable {step step' : σ → ε → σ → Prop} {s₀ s : σ} {tr : List ε}

/-- An invariant of the history and the state, from its initial case and one step. -/
theorem inv {I : List ε → σ → Prop} (h0 : I [] s₀)
    (hstep : ∀ tr s e s', I tr s → step s e s' → I (tr ++ [e]) s') (h : Run step s₀ tr s) :
    I tr s := by
  induction h with
  | nil => exact h0
  | snoc _ hs ih => exact hstep _ _ _ _ ih hs

/-- `inv` for an invariant of the state alone. -/
theorem inv_state {I : σ → Prop} (h0 : I s₀) (hstep : ∀ s e s', I s → step s e s' → I s')
    (h : Run step s₀ tr s) : I s :=
  h.inv (I := fun _ s => I s) h0 (fun _ s e s' hi hs => hstep s e s' hi hs)

theorem mono (hm : ∀ s e s', step s e s' → step' s e s') (h : Run step s₀ tr s) :
    Run step' s₀ tr s := by
  induction h with
  | nil => exact .nil
  | snoc _ hs ih => exact ih.snoc (hm _ _ _ hs)

/-- A run all of whose events meet a condition. -/
theorem where_of_forall {P : ε → Prop} (hP : ∀ e ∈ tr, P e) (h : Run step s₀ tr s) :
    Run (Where (fun _ e => P e) step) s₀ tr s := by
  induction h with
  | nil => exact .nil
  | snoc _ hs ih =>
    refine (ih fun e he => hP e (List.mem_append_left _ he)).snoc ⟨hP _ ?_, hs⟩
    exact List.mem_append_right _ List.mem_cons_self

/-- The last step of a run. -/
theorem of_snoc {e : ε} {s' : σ} (h : Run step s₀ (tr ++ [e]) s') :
    ∃ s, Run step s₀ tr s ∧ step s e s' := by
  generalize htr : tr ++ [e] = tr' at h
  cases h with
  | nil => exact absurd htr (by simp)
  | snoc h hs =>
    obtain ⟨rfl, he⟩ := List.append_inj' htr rfl
    obtain rfl := List.singleton_inj.mp he
    exact ⟨_, h, hs⟩

theorem of_nil (h : Run step s₀ [] s) : s = s₀ := by
  generalize htr : ([] : List ε) = tr' at h
  cases h with
  | nil => rfl
  | snoc _ _ => exact absurd htr (by simp)

/-- A relation between two runs that take the same events. -/
theorem lockstep {R : List ε → σ → σ → Prop} {t0 t : σ} (h0 : R [] s₀ t0)
    (hstep : ∀ tr s t e s' t', R tr s t → step s e s' → step t e t' → R (tr ++ [e]) s' t')
    (h : Run step s₀ tr s) (h' : Run step t0 tr t) : R tr s t := by
  induction h generalizing t with
  | nil =>
    rw [h'.of_nil]
    exact h0
  | snoc _ hs ih =>
    obtain ⟨t1, ht, hs'⟩ := h'.of_snoc
    exact hstep _ _ _ _ _ _ (ih ht) hs hs'

/-- Two runs in a row are one run. -/
theorem append {tr' : List ε} {s' : σ} (h : Run step s₀ tr s) (h' : Run step s tr' s') :
    Run step s₀ (tr ++ tr') s' := by
  induction h' with
  | nil => simpa using h
  | snoc _ hs ih =>
    rw [← List.append_assoc]
    exact ih.snoc hs

/-- A step in front of a run. -/
theorem cons {e : ε} {s1 : σ} (hs : step s₀ e s1) (h : Run step s1 tr s) :
    Run step s₀ (e :: tr) s := by
  have h1 : Run step s₀ [e] s1 := by simpa using Run.nil.snoc hs
  exact h1.append h

end Run

/-- Runs the events of `es` through a partial step function. -/
def exec (f : σ → ε → Option σ) (s : σ) : List ε → Option σ
  | [] => some s
  | e :: es => (f s e).bind fun s' => exec f s' es

theorem run_of_exec {f : σ → ε → Option σ} {es : List ε} {s s' : σ}
    (h : exec f s es = some s') : Run (Fires f) s es s' := by
  induction es generalizing s with
  | nil =>
    cases h
    exact .nil
  | cons e es ih =>
    obtain ⟨s1, h1, h2⟩ := Option.bind_eq_some_iff.mp h
    exact Run.cons h1 (ih h2)

/-- A state that a test finds at the end of the events. -/
theorem exec_any (f : σ → ε → Option σ) (s : σ) (es : List ε) (P : σ → Bool)
    (h : (exec f s es).any P = true) : ∃ s', exec f s es = some s' ∧ P s' = true := by
  cases hx : exec f s es with
  | none =>
    rw [hx] at h
    cases h
  | some s' =>
    rw [hx] at h
    exact ⟨s', rfl, h⟩

/-- The partial step function that refuses the steps outside `ok`. -/
def guarded (ok : σ → ε → Prop) [∀ s e, Decidable (ok s e)] (f : σ → ε → Option σ) :
    σ → ε → Option σ :=
  fun s e => if ok s e then f s e else none

theorem run_where_of_exec {ok : σ → ε → Prop} [∀ s e, Decidable (ok s e)]
    {f : σ → ε → Option σ} {es : List ε} {s s' : σ} (h : exec (guarded ok f) s es = some s') :
    Run (Where ok (Fires f)) s es s' := by
  refine (run_of_exec h).mono ?_
  intro s e s' hs
  have hs : (if ok s e then f s e else none) = some s' := hs
  split at hs
  · rename_i hok
    exact ⟨hok, hs⟩
  · cases hs

end Xv6.Lib
