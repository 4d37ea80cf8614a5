/-
  Who can be killed by whom.

  `kkill` compares pids and does not look at the state of the slot, and an UNUSED slot has pid 0.
  So `kkill(0)` stops at the first free slot, marks it and returns 0; `allocproc` does not clear
  the mark, and the next process of that slot is born killed (`kill_zero_marks_newborn`). Nothing
  else goes wrong: in every run in which no `kkill` stops at an UNUSED slot, a process is killed
  only by a `kkill` of its own pid or by itself, since its creation (`kills_hit_target`).
-/
import Xv6.Process.Effect

namespace Xv6.Process

open Xv6.Lib

/-- No `kkill` stops at an UNUSED slot. -/
def KillsLive (s : Sys) : Ev → Prop
  | .killHit _ k _ => (s.proc k).state ≠ .unused
  | _ => True

instance (s : Sys) (e : Ev) : Decidable (KillsLive s e) :=
  match e with
  | .killHit _ k _ => inferInstanceAs (Decidable ((s.proc k).state ≠ .unused))
  | .userinit .. | .schedule _ | .yield _ | .sleep .. | .wakeup _ | .trap .. | .ecall ..
  | .dispatch _ | .setFilter _ | .exec .. | .sysret .. | .forkSkip .. | .forkFull _
  | .forkAlloc .. | .forkLink .. | .forkRun .. | .forkret .. | .killSkip .. | .killNone ..
  | .waitReap .. | .waitNone _ | .waitSleep _ | .exitClose .. | .exitZombie .. | .ret _ =>
    isTrue trivial

/-- An UNUSED slot carries no mark, and the pid 0. -/
def FreeSlots (s : Sys) : Prop :=
  ∀ j, (s.proc j).state = .unused → (s.proc j).killed = false ∧ (s.proc j).pid = 0

/-- The event is a `kkill` that names the live process in slot `j`, or a `setkilled` that this
    process calls on itself (a fatal trap, a system call its filter forbids). -/
inductive KilledBy (s : Sys) (j : Slot) : Ev → Prop
  | kkill (i : Slot) (pid : Int) (hpid : (s.proc j).pid = pid)
      (hlive : (s.proc j).state ≠ .unused) : KilledBy s j (.killHit i j pid)
  | fault (tf : Trapframe) : KilledBy s j (.trap j tf true)
  | filter (h : Violates (s.proc j)) : KilledBy s j (.dispatch j)

section Steps

variable {s : Sys} {e : Ev} {j : Slot}

theorem killedBy_of_marks (he : enabled s e = true) (hk : KillsLive s e)
    (hm : Marks j (s.proc j) e) : KilledBy s j e ∧ (s.proc j).state ≠ .unused := by
  cases e with
  | killHit i k pid =>
    obtain rfl : j = k := hm
    exact ⟨.kkill i pid (decide_eq_true_iff.mp he).2 hk, hk⟩
  | trap i tf fatal =>
    obtain ⟨rfl, rfl⟩ := hm
    have hrun : (s.proc j).state = .running := (decide_eq_true_iff.mp he).1
    exact ⟨.fault tf, by simp [hrun]⟩
  | dispatch i =>
    obtain ⟨rfl, hv⟩ := hm
    have hrun : (s.proc j).state = .running := (decide_eq_true_iff.mp he).1
    exact ⟨.filter hv, by simp [hrun]⟩
  | _ => exact hm.elim

theorem freeSlots_step (hi : FreeSlots s) (he : enabled s e = true) (hk : KillsLive s e) :
    FreeSlots (next s e) := by
  intro j hj
  cases next_kind s j e with
  | quiet hkd hpid _ hs | filtered _ hkd hpid _ hs => rw [hkd, hpid]; exact hi j (hs hj)
  | marked hm _ _ _ hs => exact absurd (hs hj) (killedBy_of_marks he hk hm).2
  | freed _ hkd hpid _ => exact ⟨hkd, hpid⟩
  | created _ _ _ hs => exact absurd hj hs

/-- A process that is marked after an event was marked before it, unless the event kills it. -/
theorem killed_step (hi : FreeSlots s) (he : enabled s e = true) (hk : KillsLive s e)
    (hm : ((next s e).proc j).killed = true) :
    ((s.proc j).state ≠ .unused ∧ (s.proc j).killed = true ∧ ¬ e.creates j) ∨ KilledBy s j e := by
  have hback : (s.proc j).killed = true →
      (s.proc j).state ≠ .unused ∧ (s.proc j).killed = true ∧ ¬ e.creates j := by
    intro h
    have hlive : (s.proc j).state ≠ .unused := by
      intro hu
      rw [(hi j hu).1] at h
      cases h
    exact ⟨hlive, h, fun hc => hlive (creates_unused he hc)⟩
  cases next_kind s j e with
  | quiet hkd _ _ _ | filtered _ hkd _ _ _ | created _ hkd _ _ => exact .inl (hback (hkd ▸ hm))
  | marked hmk _ _ _ _ => exact .inr (killedBy_of_marks he hk hmk).1
  | freed _ hkd _ _ => rw [hkd] at hm; cases hm

end Steps

/-- The run so far accounts for every mark. -/
def Accounted (tr : List Ev) (s : Sys) : Prop :=
  Run (Where KillsLive (Fires step)) Sys.boot tr s ∧ FreeSlots s ∧
    ∀ j, (s.proc j).killed = true →
      ∃ before e after s₁, tr = before ++ e :: after ∧
        Run (Where KillsLive (Fires step)) Sys.boot before s₁ ∧ KilledBy s₁ j e ∧
        ∀ e' ∈ after, ¬ e'.creates j

theorem accounted_boot : Accounted [] Sys.boot :=
  ⟨.nil, fun _ _ => ⟨rfl, rfl⟩, nofun⟩

theorem accounted_step (tr : List Ev) (s : Sys) (e : Ev) (s' : Sys) (ha : Accounted tr s)
    (hs : Where KillsLive (Fires step) s e s') : Accounted (tr ++ [e]) s' := by
  obtain ⟨hrun, hfree, hacc⟩ := ha
  obtain ⟨hk, hfire⟩ := hs
  obtain ⟨he, rfl⟩ := step_eq_some.mp hfire
  refine ⟨hrun.snoc ⟨hk, hfire⟩, freeSlots_step hfree he hk, ?_⟩
  intro j hm
  rcases killed_step hfree he hk hm with ⟨_, hold, hnc⟩ | hnew
  · obtain ⟨before, e1, after, s1, rfl, h1, h2, h3⟩ := hacc j hold
    refine ⟨before, e1, after ++ [e], s1, by simp, h1, h2, ?_⟩
    intro e' he'
    rcases List.mem_append.mp he' with he' | he'
    · exact h3 e' he'
    · rw [List.mem_singleton.mp he']
      exact hnc
  · exact ⟨tr, e, [], s, rfl, hrun, hnew, nofun⟩

/-- **Kills hit only their target.** In every run in which no `kkill` stops at an UNUSED slot:
    a marked process was named by a `kkill` or called `setkilled` on itself, and its slot has not
    been handed out since; a new process is not marked; and a `kkill` that returns 0 has found a
    live process with the pid it was given. -/
theorem kills_hit_target {tr : List Ev} {s : Sys}
    (h : Run (Where KillsLive (Fires step)) Sys.boot tr s) :
    (∀ j, (s.proc j).killed = true → (s.proc j).state ≠ .unused ∧
      ∃ before e after s₁, tr = before ++ e :: after ∧
        Run (Where KillsLive (Fires step)) Sys.boot before s₁ ∧ KilledBy s₁ j e ∧
        ∀ e' ∈ after, ¬ e'.creates j) ∧
    ∀ e s', Where KillsLive (Fires step) s e s' → (∀ c, e.creates c → (s'.proc c).killed = false) ∧
      (∀ i k pid, e = .killHit i k pid → (s.proc k).state ≠ .unused ∧ (s.proc k).pid = pid) := by
  have hacc : Accounted tr s := h.inv accounted_boot accounted_step
  obtain ⟨-, hfree, hmarks⟩ := hacc
  refine ⟨?_, ?_⟩
  · intro j hj
    refine ⟨fun hu => ?_, hmarks j hj⟩
    rw [(hfree j hu).1] at hj
    cases hj
  · rintro e s' ⟨hk, hfire⟩
    obtain ⟨he, rfl⟩ := step_eq_some.mp hfire
    refine ⟨?_, ?_⟩
    · intro c hc
      by_contra hm
      rcases killed_step hfree he hk (Bool.not_eq_false _ ▸ hm) with ⟨hlive, _, _⟩ | hby
      · exact hlive (creates_unused he hc)
      · cases hby <;> exact hc.elim
    · rintro i k pid rfl
      exact ⟨hk, (decide_eq_true_iff.mp he).2⟩

/-- The first process forks a child and kills it. -/
def killChildRun : List Ev :=
  bootRun ++ forkChild 2 ++ Syscall.call .kill 0 2 ++ [.killSkip 0 0 2, .killHit 0 1 2]

theorem kills_hit_target_killChildRun :
    ∃ s, exec (guarded KillsLive step) Sys.boot killChildRun = some s ∧ (s.proc 1).killed = true ∧
      ∃ before e after s₁, killChildRun = before ++ e :: after ∧
        Run (Where KillsLive (Fires step)) Sys.boot before s₁ ∧ KilledBy s₁ 1 e ∧
        ∀ e' ∈ after, ¬ e'.creates 1 := by
  obtain ⟨s, hx, hk⟩ : ∃ s, exec (guarded KillsLive step) Sys.boot killChildRun = some s ∧
      (s.proc 1).killed = true := ⟨_, rfl, rfl⟩
  exact ⟨s, hx, hk, ((kills_hit_target (run_where_of_exec hx)).1 1 hk).2⟩

/-- The first process calls `kill(0)`; slot 1 is UNUSED. -/
def killZeroRun : List Ev :=
  bootRun ++ Syscall.call .kill 0 0 ++ [.killSkip 0 0 0]

/-- `kkill(0)` returns 0 although no live process has pid 0, and the child that is forked next
    is created with `killed = 1`. -/
theorem kill_zero_marks_newborn :
    ∃ s s₁ s₂, Run (Fires step) Sys.boot killZeroRun s ∧
      (∀ j, (s.proc j).state ≠ .unused → (s.proc j).pid ≠ 0) ∧
      step s (.killHit 0 1 0) = some s₁ ∧ (s₁.proc 0).tf.a0 = 0 ∧
      Run (Fires step) s₁ (.ret 0 :: forkChild 2) s₂ ∧
      (s₂.proc 1).state = .runnable ∧ (s₂.proc 1).pid = 2 ∧ (s₂.proc 1).killed = true := by
  obtain ⟨s, s₁, s₂, hx, hpid, hs, ha, hx', h1, h2, h3⟩ :
    ∃ s s₁ s₂, exec step Sys.boot killZeroRun = some s ∧
      (∀ j, (s.proc j).state ≠ .unused → (s.proc j).pid ≠ 0) ∧
      step s (.killHit 0 1 0) = some s₁ ∧ (s₁.proc 0).tf.a0 = 0 ∧
      exec step s₁ (.ret 0 :: forkChild 2) = some s₂ ∧
      (s₂.proc 1).state = .runnable ∧ (s₂.proc 1).pid = 2 ∧ (s₂.proc 1).killed = true :=
    ⟨_, _, _, rfl, by decide, rfl, rfl, rfl, rfl, rfl, rfl⟩
  exact ⟨s, s₁, s₂, run_of_exec hx, hpid, hs, ha, run_of_exec hx', h1, h2, h3⟩

end Xv6.Process
