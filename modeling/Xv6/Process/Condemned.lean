/-
  A process that marks itself killed never reaches user space again.

  From the forbidden call the thread goes through `usertrap`'s last test into `kexit`. No other
  thread can bring its slot back: a slot is handed out only when UNUSED, and it becomes UNUSED
  only when the parent reaps it. The one other event that makes a slot runnable out of turn is
  the last step of `kfork`, and `ForkWf` says that it meets a USED slot only.
-/
import Xv6.Process.Effect

namespace Xv6.Process

open Xv6.Lib

variable {s s' : Sys} {e : Ev} {i j c : Slot}

/-- The child that a thread inside `kfork` has not yet made runnable. -/
def Pos.child : Pos → Option Slot
  | .forkLink c _ | .forkRun c _ => some c
  | _ => none

/-- A child in the making is USED, and only one parent is at work on it. -/
structure ForkWf (s : Sys) : Prop where
  used : ∀ {i c}, (s.pos i).child = some c → (s.proc c).state = .used
  unique : ∀ {i j c}, (s.pos i).child = some c → (s.pos j).child = some c → i = j

theorem forkWf_boot : ForkWf Sys.boot :=
  ⟨nofun, nofun⟩

theorem dispatchPos_child (p : Proc) : (dispatchPos p).child = none := by
  unfold dispatchPos
  split
  · rename_i c _
    split
    · cases c <;> rfl
    · rfl
  · rfl

/-- A thread gets into the middle of `kfork` through `allocproc` only. -/
theorem child_step (he : enabled s e = true) (h : ((next s e).pos i).child = some c) :
    (s.pos i).child = some c ∨ ∃ m, e = .forkAlloc i c (some m) := by
  rw [next_pos] at h
  -- an event moves its own thread to a position with no child, or leaves the position alone
  have quiet : ∀ {k : Slot} {q : Pos}, q.child = none →
      (if i = k then q else s.pos i).child = some c → (s.pos i).child = some c := by
    intro k q hq hc
    split at hc
    · rw [hq] at hc
      cases hc
    · exact hc
  cases e with
  | forkAlloc k d m =>
    cases m with
    | none => exact .inl (quiet rfl h)
    | some m =>
      rw [posEdit] at h
      split at h
      · rename_i hk
        have hd : d = c := Option.some.inj h
        exact .inr ⟨m, by rw [hk, hd]⟩
      · exact .inl (quiet rfl h)
  | forkLink k d pid =>
    rw [posEdit] at h
    split at h
    · rename_i hk
      have hpos : s.pos k = .forkLink d pid := (decide_eq_true_iff.mp he).2
      rw [hk, hpos]
      exact .inl h
    · exact .inl h
  | dispatch k => exact .inl (quiet (dispatchPos_child _) h)
  | ecall | ret => exact .inl (quiet (by split <;> rfl) h)
  | schedule | yield | sleep | wakeup | waitSleep => exact .inl h
  | _ => exact .inl (quiet rfl h)

/-- A USED slot stays so until its parent makes it runnable. -/
theorem used_step (he : enabled s e = true) (hu : (s.proc c).state = .used) :
    ((next s e).proc c).state = .used ∨ ∃ i pid, e = .forkRun i c pid := by
  have ha : e.actor ≠ some c := by
    intro ha
    rcases actor_runs he ha with h | h <;> rw [hu] at h <;> cases h
  cases bystander (s := s) ha with
  | quiet _ hstate _ _ =>
    rcases hstate with h | ⟨h, _⟩
    · exact .inl (h.trans hu)
    · rw [hu] at h
      cases h
  | created h =>
    have hfree := creates_unused he h
    rw [hu] at hfree
    cases hfree
  | refused i h =>
    subst h
    have hfree : (s.proc c).state = .unused := (decide_eq_true_iff.mp he).2
    rw [hu] at hfree
    cases hfree
  | reaped i h =>
    subst h
    have hz : (s.proc c).state = .zombie := (decide_eq_true_iff.mp he).2.1.2
    rw [hu] at hz
    cases hz
  | started i pid h => exact .inr ⟨i, pid, h⟩

theorem forkWf_step (hw : ForkWf s) (he : enabled s e = true) : ForkWf (next s e) := by
  constructor
  · intro i c h
    rcases child_step he h with hold | ⟨m, rfl⟩
    · rcases used_step he (hw.used hold) with hu | ⟨k, pid, rfl⟩
      · exact hu
      · -- the thread that finishes `kfork` is the one at work on `c`
        have hpos : s.pos k = .forkRun c pid := (decide_eq_true_iff.mp he).2
        obtain rfl : i = k := hw.unique hold (by rw [hpos]; rfl)
        rw [next_pos, posEdit, if_pos rfl] at h
        cases h
    · rw [next_proc, edit, on_same]
      rfl
  · intro i j c hi hj
    rcases child_step he hi with hi' | ⟨m, rfl⟩
    · rcases child_step he hj with hj' | ⟨m, rfl⟩
      · exact hw.unique hi' hj'
      · have hfree : (s.proc c).state = .unused := (decide_eq_true_iff.mp he).2
        rw [hw.used hi'] at hfree
        cases hfree
    · rcases child_step he hj with hj' | ⟨m', hm⟩
      · have hfree : (s.proc c).state = .unused := (decide_eq_true_iff.mp he).2
        rw [hw.used hj'] at hfree
        cases hfree
      · cases hm
        rfl

theorem forkWf_run {tr : List Ev} (h : Run (Fires step) Sys.boot tr s) : ForkWf s :=
  h.inv_state forkWf_boot fun s e s' hw hs => by
    obtain ⟨he, rfl⟩ := step_eq_some.mp hs
    exact forkWf_step hw he

/-! ## The way out -/

/-- The positions between a forbidden call and the end of `kexit`. -/
def Pos.leaving : Pos → Bool
  | .ret | .exiting _ | .orphaning _ => true
  | _ => false

theorem plain_not_leaving {q : Pos} (h : q.plain = true) : q.leaving = false := by
  cases q with
  | handler c => rfl
  | _ => cases h

/-- Marked and on the way out, or a zombie. -/
structure Condemned (s : Sys) (i : Slot) : Prop where
  killed : (s.proc i).killed = true
  leaving : ((s.pos i).leaving = true ∧ (s.proc i).state ≠ .unused ∧ (s.proc i).state ≠ .used ∧
      (s.proc i).state ≠ .zombie) ∨ (s.pos i = .dead ∧ (s.proc i).state = .zombie)

/-- The parent does not reap slot `i`: it is still the same process. -/
def NotReaped (i : Slot) (_ : Sys) (e : Ev) : Prop :=
  ¬ e.frees i

theorem Condemned.not_user (h : Condemned s i) : s.pos i ≠ .user := by
  rcases h.leaving with ⟨hl, _⟩ | ⟨hd, _⟩
  · intro hu
    rw [hu] at hl
    cases hl
  · rw [hd]
    exact nofun

theorem Condemned.not_unused (h : Condemned s i) : (s.proc i).state ≠ .unused := by
  rcases h.leaving with ⟨_, hu, _⟩ | ⟨_, hz⟩
  · exact hu
  · rw [hz]
    exact nofun

/-- Nothing but `freeproc` clears the mark. -/
theorem killed_keep (hk : (s.proc i).killed = true) (hr : ¬ e.frees i) :
    ((next s e).proc i).killed = true := by
  cases next_kind s i e with
  | quiet h | filtered _ h | created _ h => exact h.trans hk
  | marked _ h => exact h
  | freed h => exact absurd h hr

/-- The thread of a condemned process only goes on towards `kexit`. -/
theorem condemned_own (hk : (s.proc i).killed = true) (hl : (s.pos i).leaving = true)
    (he : enabled s e = true) (ha : e.actor = some i) : ((next s e).pos i).leaving = true ∧
        (((next s e).proc i).state = .running ∨ ((next s e).proc i).state = .runnable ∨
          ((next s e).proc i).state = .sleeping) ∨
      ((next s e).pos i = .dead ∧ ((next s e).proc i).state = .zombie) := by
  have stuck : ∀ {q : Pos}, q.leaving = false → s.pos i = q → False := by
    intro q hq hp
    rw [hp, hq] at hl
    cases hl
  cases e with
  | userinit | wakeup => cases ha
  | schedule k =>
    cases ha
    exact .inl ⟨hl, .inl (by rw [next_proc, edit, on_same])⟩
  | yield k =>
    cases ha
    exact .inl ⟨hl, .inr (.inl (by rw [next_proc, edit, on_same]))⟩
  | sleep k ch =>
    cases ha
    exact .inl ⟨hl, .inr (.inr (by rw [next_proc, edit, on_same]))⟩
  | exitClose k status =>
    cases ha
    have hrun : (s.proc i).state = .running := (decide_eq_true_iff.mp he).1.1
    refine .inl ⟨by rw [next_pos, posEdit, if_pos rfl]; rfl, .inl ?_⟩
    rw [next_proc, edit, on_same]
    exact hrun
  | exitZombie k status =>
    cases ha
    exact .inr ⟨by rw [next_pos, posEdit, if_pos rfl], by rw [next_proc, edit, on_same]⟩
  | ret k =>
    cases ha
    have hrun : (s.proc i).state = .running := (decide_eq_true_iff.mp he).1
    refine .inl ⟨by rw [next_pos, posEdit, if_pos rfl, if_pos hk]; rfl, .inl ?_⟩
    rw [next_proc, edit]
    exact hrun
  | sysret k r =>
    cases ha
    have hplain : (s.pos i).plain = true := (decide_eq_true_iff.mp he).2
    exact (stuck (plain_not_leaving hplain) rfl).elim
  | forkSkip | forkAlloc | forkret | killSkip | killHit | waitReap | waitNone | waitSleep =>
    cases ha
    exact (stuck rfl (decide_eq_true_iff.mp he).1.2).elim
  | _ =>
    cases ha
    exact (stuck rfl (decide_eq_true_iff.mp he).2).elim

theorem condemned_step (hw : ForkWf s) (hc : Condemned s i) (he : enabled s e = true)
    (hr : ¬ e.frees i) : Condemned (next s e) i := by
  refine ⟨killed_keep hc.killed hr, ?_⟩
  by_cases ha : e.actor = some i
  · rcases hc.leaving with ⟨hl, _⟩ | ⟨_, hz⟩
    · rcases condemned_own hc.killed hl he ha with ⟨hl', h | h | h⟩ | hdead
      · exact .inl ⟨hl', by simp [h]⟩
      · exact .inl ⟨hl', by simp [h]⟩
      · exact .inl ⟨hl', by simp [h]⟩
      · exact .inr hdead
    · -- a zombie has no thread
      have hrun := actor_runs he ha
      rw [hz] at hrun
      rcases hrun with h | h <;> cases h
  · cases bystander (s := s) ha with
    | quiet hpos hstate _ _ =>
      rw [hpos]
      rcases hstate with h | ⟨h, h'⟩
      · rw [h]
        exact hc.leaving
      · rw [h']
        rcases hc.leaving with ⟨hl, _⟩ | ⟨_, hz⟩
        · exact .inl ⟨hl, nofun, nofun, nofun⟩
        · rw [h] at hz
          cases hz
    | created h => exact absurd (creates_unused he h) hc.not_unused
    | refused k h | reaped k h =>
      subst h
      exact absurd ⟨rfl, rfl⟩ hr
    | started k pid h =>
      subst h
      have hpos : s.pos k = .forkRun i pid := (decide_eq_true_iff.mp he).2
      have hused : (s.proc i).state = .used := hw.used (i := k) (by rw [hpos]; rfl)
      rcases hc.leaving with ⟨_, _, hus, _⟩ | ⟨_, hz⟩
      · exact absurd hused hus
      · rw [hused] at hz
        cases hz

/-- **No way back.** A condemned process is never again in user mode, in any run in which its
    slot is not reaped. -/
theorem condemned_run {tr : List Ev} (hw : ForkWf s) (hc : Condemned s i)
    (h : Run (Where (NotReaped i) (Fires step)) s tr s') : Condemned s' i := by
  have hboth : ForkWf s' ∧ Condemned s' i := by
    refine h.inv_state (I := fun s => ForkWf s ∧ Condemned s i) ⟨hw, hc⟩ ?_
    rintro s e s' ⟨hw, hc⟩ ⟨hr, hs⟩
    obtain ⟨he, rfl⟩ := step_eq_some.mp hs
    exact ⟨forkWf_step hw he, condemned_step hw hc he hr⟩
  exact hboth.2

end Xv6.Process
