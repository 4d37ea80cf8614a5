/-
  What an operation writes.

  `Op.next` is the state after a step: the operation, and the CPU at its new position. An
  operation writes the record of at most one process (`Op.target`), and a CPU executes another
  process, or none, only after a switch (`Op.on`).
-/
import Xv6.Sched.Edges

namespace Xv6.Sched

open Lib Process Function

variable {n : ℕ} {M C K R : Type}

variable [DecidableEq M] [DecidableEq C] [DecidableEq K] {cfg : Cfg n C K} {s : State n M C K R}
  {m m' : M} {op : Op n C K R} {pc : Pc n C K} {q : Fin n}

/-- The process whose record an operation writes. -/
def Op.target : Op n C K R → Option (Fin n)
  | .edit q _ _ | .free q _ | .alloc q _ | .copy _ q | .swtchOut q _ | .prepareReturn q
  | .intr q _ | .iret q _ => some q
  | _ => none

/-- The process that the CPU executes afterwards. -/
def Op.on (o : Option (Fin n)) : Op n C K R → Option (Fin n)
  | .swtchOut _ _ => none
  | .swtchIn p _ => some p
  | _ => o

/-- The operation is not a switch. -/
def Op.Stays : Op n C K R → Prop
  | .swtchOut _ _ | .swtchIn _ _ => False
  | _ => True

theorem Op.apply_cpu_ne (hm : m' ≠ m) : (op.apply cfg s m).cpu m' = s.cpu m' := by
  cases op with
  | woken c =>
    unfold Op.apply
    dsimp only
    split <;> rfl
  | swtchOut | swtchIn | load | kernel | userret | uservec => exact update_of_ne hm _ _
  | _ => rfl

theorem Op.apply_on : ((op.apply cfg s m).cpu m).on = op.on (s.cpu m).on := by
  cases op with
  | woken c =>
    unfold Op.apply
    dsimp only
    split <;> rfl
  | swtchOut | swtchIn | load | kernel | userret | uservec =>
    simp [Op.apply, State.setCpu, State.setProc, Op.on]
  | _ => rfl

theorem Op.apply_proc_ne (hq : op.target ≠ some q) : (op.apply cfg s m).proc q = s.proc q := by
  cases op with
  | woken c =>
    unfold Op.apply
    dsimp only
    split <;> rfl
  | edit p | free p | alloc p | swtchOut p | prepareReturn p | intr p | iret p =>
    exact update_of_ne (fun h => hq (congrArg some h.symm)) _ _
  | copy p' p => exact update_of_ne (fun h => hq (congrArg some h.symm)) _ _
  | _ => rfl

/-- The state after an operation and the move to `pc`. -/
def Op.next (cfg : Cfg n C K) (s : State n M C K R) (m : M) (op : Op n C K R) (pc : Pc n C K) :
    State n M C K R :=
  (op.apply cfg s m).goto m pc

theorem next_cpu_ne (hm : m' ≠ m) : (op.next cfg s m pc).cpu m' = s.cpu m' :=
  (update_of_ne hm _ _).trans (Op.apply_cpu_ne hm)

theorem next_cpu : (op.next cfg s m pc).cpu m = { (op.apply cfg s m).cpu m with pc := pc } :=
  update_self _ _ _

theorem next_pc : ((op.next cfg s m pc).cpu m).pc = pc := by rw [next_cpu]

theorem next_on : ((op.next cfg s m pc).cpu m).on = op.on (s.cpu m).on := by
  rw [next_cpu]
  exact Op.apply_on

theorem next_proc_ne (hq : op.target ≠ some q) : (op.next cfg s m pc).proc q = s.proc q :=
  Op.apply_proc_ne hq

theorem next_plock (h1 : ∀ q, op ≠ .lock q) (h2 : ∀ q, op ≠ .unlock q) :
    (op.next cfg s m pc).plock = s.plock := by
  show (op.apply cfg s m).plock = s.plock
  cases op with
  | lock q => exact absurd rfl (h1 q)
  | unlock q => exact absurd rfl (h2 q)
  | woken c =>
    unfold Op.apply
    dsimp only
    split <;> rfl
  | _ => rfl

/-- Who runs where, unless the step is a switch. -/
theorem next_on_eq (hs : op.Stays) (m' : M) : ((op.next cfg s m pc).cpu m').on = (s.cpu m').on := by
  by_cases hm : m' = m
  · subst hm
    rw [next_on]
    cases op with
    | swtchOut | swtchIn => exact hs.elim
    | _ => rfl
  · rw [next_cpu_ne hm]

/-- What an operation of CPU `m` makes of the record of process `p`. -/
inductive Wrote (s : State n M C K R) (m : M) (p : Fin n) : Op n C K R → PRec n C K R → Prop
  | none {op : Op n C K R} (h : op.target ≠ some p) : Wrote s m p op (s.proc p)
  | edit (g f) : Wrote s m p (.edit p g f) (f (s.proc p))
  | free (g) : Wrote s m p (.free p g) (freeproc (s.proc p))
  | alloc (r) : Wrote s m p (.alloc p r) (allocproc p r (s.proc p))
  | copy (p') : Wrote s m p (.copy p' p) { s.proc p with tf := (s.proc p').tf }
  | swtchOut (b) : Wrote s m p (.swtchOut p b) { s.proc p with sp := (s.cpu m).stack, pc := b }
  | prepareReturn : Wrote s m p (.prepareReturn p)
      { s.proc p with tf := ((s.cpu m).satp, (s.proc p).kstack) }
  | intr (b) : Wrote s m p (.intr p b) { s.proc p with saved := some b }
  | iret (b) : Wrote s m p (.iret p b) { s.proc p with saved := none }

theorem next_wrote (p : Fin n) : Wrote s m p op ((op.next cfg s m pc).proc p) := by
  by_cases ht : op.target = some p
  · have hself : ∀ {c}, Wrote s m p op c → Wrote s m p op (update s.proc p c p) := fun h =>
      (update_self p _ s.proc).symm ▸ h
    cases op with
    | edit | free | alloc | copy | swtchOut | prepareReturn | intr | iret =>
      cases ht
      exact hself (by constructor)
    | _ => cases ht
  · rw [next_proc_ne ht]
    exact .none ht

end Xv6.Sched
