/-
  What one step of the code does to what its position determines.

  A position determines which process lock the CPU holds (`Pc.lock`), the state of the process
  that it executes (`Pc.state`) and the slot that a fork is filling (`Pc.child`). The lemmas
  below read the flow graph; later proofs use them and the operation of a step.
-/
import Xv6.Sched.Model

namespace Xv6.Sched

open Lib Process

variable {n : ℕ} {M C K R : Type}

/-! ## Positions -/

namespace Pc

/-- The process lock that a CPU holds at this position. -/
def lock (o : Option (Fin n)) : Pc n C K → Option (Fin n)
  | .wakeIn _ _ i | .wakeOut _ _ i | .killIn _ i | .killHit i | .killMiss _ i | .wait1 i | .wait2 i
  | .forkIn i | .forkNo i | .forkUsed i | .forkMade i | .forkFail i | .forkCopied i | .forkLast i
  | .forkRun i | .schedIn i | .schedLoad i | .schedGo i | .schedBack i | .schedDone i => some i
  | .yield1 _ | .yield2 _ | .yielded _ | .sleep1 _ _ | .sleep2 _ _ | .sleep3 _ _ | .asleep _ _
  | .awake _ | .exit1 | .exit2 | .exit3 | .forkret => o
  | _ => none

/-- The state of the process that a CPU executes at this position. -/
def state : Pc n C K → ProcState
  | .yield2 _ => .runnable
  | .sleep3 _ _ => .sleeping
  | .exit2 | .exit3 => .zombie
  | _ => .running

/-- Inside an interrupt handler. -/
def handler : Pc n C K → Bool
  | .kern h | .wake h _ _ | .wakeIn h _ _ | .wakeOut h _ _ | .yield1 h | .yield2 h | .yielded h => h
  | _ => false

/-- The position is one of process code, or one of the scheduler. -/
def Fits : Option (Fin n) → Pc n C K → Prop
  | some _, pc =>
    match pc with
    | .dead | .unborn | .sched _ | .schedIn _ | .schedLoad _ | .schedGo _ | .schedBack _
    | .schedDone _ => False
    | _ => True
  | none, pc =>
    match pc with
    | .kern true | .wake true _ _ | .wakeIn true _ _ | .wakeOut true _ _ | .sched _ | .schedIn _
    | .schedLoad _ | .schedGo _ | .schedBack _ | .schedDone _ => True
    | _ => False

/-- The slot that a fork has claimed and not yet made runnable. -/
def child : Pc n C K → Option (Fin n)
  | .forkUsed i | .forkMade i | .forkCopied i | .forkDone i | .forkPar i | .forkPar' i | .forkSet i
  | .forkLast i => some i
  | _ => none

/-- Where that slot's thread will start. -/
def childPc : Pc n C K → Pc n C K
  | .forkUsed _ => .unborn
  | _ => .forkret

/-- The scheduler is about to switch to process `i`. -/
def starts (i : Fin n) : Pc n C K → Prop
  | .schedLoad j | .schedGo j => j = i
  | _ => False

theorem lock_of_state {pc : Pc n C K} (h : pc.state ≠ .running) (p : Fin n) :
    pc.lock (some p) = some p := by
  unfold state at h
  split at h
  all_goals first | rfl | exact absurd rfl h

theorem starts.lock {pc : Pc n C K} {i : Fin n} (h : pc.starts i) (o : Option (Fin n)) :
    pc.lock o = some i := by
  unfold starts at h
  split at h
  · exact congrArg some h
  · exact congrArg some h
  · exact h.elim

variable {b : Pc n C K}

theorem interruptible.fits (h : b.interruptible) (p : Fin n) : b.Fits (some p) := by
  unfold interruptible at h
  split at h <;> trivial

theorem interruptible.lock (h : b.interruptible) (o : Option (Fin n)) : b.lock o = none := by
  unfold interruptible at h
  split at h
  all_goals first | rfl | exact h.elim

theorem interruptible.state (h : b.interruptible) : b.state = .running := by
  unfold interruptible at h
  split at h
  all_goals first | rfl | exact h.elim

theorem interruptible.handler (h : b.interruptible) : b.handler = false := by
  unfold interruptible at h
  split at h
  all_goals first | rfl | exact h.elim

end Pc

/-- A process that no CPU executes: where it goes on, and its state. -/
def PRec.Parked (p : PRec n C K R) : Prop :=
  p.pc.handler = p.saved.isSome ∧
    match p.pc with
    | .unborn => p.state = .unused ∨ p.state = .used
    | .forkret => p.state = .used ∨ p.state = .runnable ∨ p.state = .running
    | .yielded _ => p.state = .runnable ∨ p.state = .running
    | .asleep c _ =>
      p.state = .sleeping ∧ p.chan = some c ∨ p.state = .runnable ∨ p.state = .running
    | .dead => p.state = .zombie
    | _ => False

/-- A process that is being started goes on where it can. -/
theorem PRec.Parked.resumes {c : PRec n C K R} (h : c.Parked) (hs : c.state = .running)
    (p : Fin n) :
    c.pc.lock (some p) = some p ∧ c.pc.Fits (some p) ∧ c.pc.state = .running ∧ c.pc.child = none ∧
      ∀ x k, c.pc ≠ .sleep3 x k := by
  have h := h.2
  rw [hs] at h
  cases hpc : c.pc with
  | forkret | yielded | asleep => exact ⟨rfl, trivial, rfl, rfl, nofun⟩
  | _ =>
    rw [hpc] at h
    simp at h

/-! ## Edges -/

namespace Edge

variable [DecidableEq C] {cfg : Cfg n C K} {o : Option (Fin n)} {pc pc' b : Pc n C K}
  {op : Op n C K R}
  {p q : Fin n} {g : PRec n C K R → Prop} {f : PRec n C K R → PRec n C K R} {c : PRec n C K R}

/-- Operations that neither take nor leave a process lock, nor switch. -/
def Plain : Op n C K R → Prop
  | .lock _ | .unlock _ | .swtchOut _ _ | .swtchIn _ _ | .intr _ _ | .iret _ _ => False
  | _ => True

theorem lock_of_lock (he : Edge cfg o pc (.lock q : Op n C K R) pc') :
    pc.lock o = none ∧ pc'.lock o = some q := by
  cases he <;> exact ⟨rfl, rfl⟩

theorem lock_of_unlock (he : Edge cfg o pc (.unlock q : Op n C K R) pc') :
    pc.lock o = some q ∧ pc'.lock o = none := by
  cases he <;> exact ⟨rfl, rfl⟩

theorem lock_of_plain (he : Edge cfg o pc op pc') (hp : Plain op) : pc'.lock o = pc.lock o := by
  cases he <;> first | rfl | exact hp.elim

theorem of_swtchOut (he : Edge cfg o pc (.swtchOut p b : Op n C K R) pc') :
    o = some p ∧ pc' = .schedBack p ∧ pc.lock o = some p ∧
      ∀ c : PRec n C K R, c.pc = b → c.state = pc.state → pc.handler = c.saved.isSome →
        (∀ x k, pc = .sleep3 x k → c.chan = some x) → c.Parked := by
  cases he with
  | yieldSched p h =>
    refine ⟨rfl, rfl, rfl, fun c h1 h2 h3 _ => ⟨by rw [h1]; exact h3, ?_⟩⟩
    rw [h1]
    exact .inl h2
  | sleepSched p x k =>
    refine ⟨rfl, rfl, rfl, fun c h1 h2 h3 h4 => ⟨by rw [h1]; exact h3, ?_⟩⟩
    rw [h1]
    exact .inl ⟨h2, h4 _ _ rfl⟩
  | exitSched p =>
    refine ⟨rfl, rfl, rfl, fun c h1 h2 h3 _ => ⟨by rw [h1]; exact h3, ?_⟩⟩
    rw [h1]
    exact h2

theorem of_swtchIn (he : Edge cfg o pc (.swtchIn p b : Op n C K R) pc') :
    o = none ∧ pc = .schedGo p ∧ pc' = b := by
  cases he
  exact ⟨rfl, rfl, rfl⟩

theorem of_intr (he : Edge cfg o pc (.intr p b : Op n C K R) pc') :
    o = some p ∧ pc = b ∧ b.interruptible ∧ pc' = .kern true := by
  cases he with
  | intr _ _ hb => exact ⟨rfl, rfl, hb, rfl⟩

theorem of_iret (he : Edge cfg o pc (.iret p b : Op n C K R) pc') :
    o = some p ∧ pc = .kern true ∧ pc' = b := by
  cases he
  exact ⟨rfl, rfl, rfl⟩

/-- Process code stays process code, and the scheduler stays the scheduler. -/
theorem fits (he : Edge cfg o pc op pc') (hf : pc.Fits o)
    (h1 : ∀ p b, op ≠ .swtchOut p b) (h2 : ∀ p b, op ≠ .swtchIn p b) (h3 : ∀ p b, op ≠ .iret p b) :
    pc'.Fits o := by
  cases he with
  | acquire o h k | release o h k | change o h v | wakeup o h c | wakeAcquire o h c i hi
  | wakeBody o h c i | wakeRelease o h c i | wakeEnd o h c i hi =>
    cases o with
    | some p => trivial
    | none =>
      cases h with
      | true => trivial
      | false => exact hf.elim
  | yieldSched | sleepSched | exitSched => exact absurd rfl (h1 _ _)
  | schedSwtch i pc => exact absurd rfl (h2 _ _)
  | iret p b => exact absurd rfl (h3 _ _)
  | _ => trivial

theorem handler_eq (he : Edge cfg o pc op pc') (h1 : ∀ p b, op ≠ .swtchOut p b)
    (h2 : ∀ p b, op ≠ .swtchIn p b) (h3 : ∀ p b, op ≠ .intr p b) (h4 : ∀ p b, op ≠ .iret p b)
    (ho : o ≠ none) : pc'.handler = pc.handler := by
  cases he with
  | yieldSched | sleepSched | exitSched => exact absurd rfl (h1 _ _)
  | schedSwtch i pc => exact absurd rfl (h2 _ _)
  | intr p b hb => exact absurd rfl (h3 _ _)
  | iret p b => exact absurd rfl (h4 _ _)
  | schedIntr | schedIret => exact absurd rfl ho
  | _ => rfl

/-- A step that does not write the record of its own process leaves its state. -/
theorem state_eq (he : Edge cfg (some p) pc op pc') (h1 : ∀ p b, op ≠ .swtchOut p b)
    (h2 : ∀ g f, op ≠ .edit p g f) (h3 : ∀ p b, op ≠ .iret p b) : pc'.state = pc.state := by
  cases he with
  | yieldSched | sleepSched | exitSched => exact absurd rfl (h1 _ _)
  | yieldSet | sleepSet | exitSet => exact absurd rfl (h2 _ _)
  | iret p b => exact absurd rfl (h3 _ _)
  | intr p b hb => exact hb.state.symm
  | _ => rfl

/-- What a critical section leaves alone. -/
theorem edit_frame (he : Edge cfg o pc (.edit q g f : Op n C K R) pc') (c : PRec n C K R) :
    (f c).pc = c.pc ∧ (f c).saved = c.saved ∧ (f c).kpagetable = c.kpagetable ∧
      (f c).kstack = c.kstack ∧ (f c).tf = c.tf ∧ (f c).sp = c.sp := by
  cases he with
  | wakeBody o h x i =>
    unfold Sched.wakeBody
    split <;> exact ⟨rfl, rfl, rfl, rfl, rfl, rfl⟩
  | killHit p pid i =>
    unfold Sched.killBody
    split <;> exact ⟨rfl, rfl, rfl, rfl, rfl, rfl⟩
  | _ => exact ⟨rfl, rfl, rfl, rfl, rfl, rfl⟩

/-- A critical section on the CPU's own process. -/
theorem edit_self (he : Edge cfg (some q) pc (.edit q g f : Op n C K R) pc') (hg : g c)
    (hs : c.state = pc.state) (hc : pc.child ≠ some q) : (f c).state = pc'.state := by
  cases he with
  | wakeBody o h x i =>
    have hs : c.state = .running := hs
    unfold Sched.wakeBody
    rw [if_neg (by rw [hs]; exact fun h => nomatch h.1)]
    exact hs
  | killHit p pid i =>
    have hs : c.state = .running := hs
    unfold Sched.killBody
    rw [if_neg (by rw [hs]; exact nofun)]
    exact hs
  | forkFound p i pid =>
    have hg : c.state = .unused := hg
    rw [hg] at hs
    cases hs
  | forkRunnable p i => exact absurd rfl hc
  | yieldSet | sleepSet | exitSet => rfl
  | _ => exact hs

section

variable (he : Edge cfg o pc (.edit q g f : Op n C K R) pc')

include he

/-- A critical section on a process that no CPU executes. -/
theorem edit_parked (hg : g c)
    (ho : o ≠ some q) (hp : c.Parked) (hc : pc.child = some q → c.pc = pc.childPc) :
    (f c).Parked := by
  obtain ⟨hh, hp⟩ := hp
  cases he with
  | wakeBody o h x i =>
    unfold Sched.wakeBody
    split
    · rename_i hx
      refine ⟨hh, ?_⟩
      revert hp
      cases hpc : c.pc <;> simp only [hx.1] <;> simp
    · exact ⟨hh, hp⟩
  | killHit p pid i =>
    unfold Sched.killBody
    split
    · rename_i hx
      refine ⟨hh, ?_⟩
      revert hp
      cases hpc : c.pc <;> simp only [hx] <;> simp
    · exact ⟨hh, hp⟩
  | forkFound p i pid =>
    have hg : c.state = .unused := hg
    refine ⟨hh, ?_⟩
    revert hp
    cases hpc : c.pc <;> simp only [hg] <;> simp
  | schedRun i =>
    have hg : c.state = .runnable := hg
    refine ⟨hh, ?_⟩
    revert hp
    cases hpc : c.pc <;> simp only [hg] <;> simp
  | forkRunnable p i =>
    have hpc : c.pc = .forkret := hc rfl
    refine ⟨hh, ?_⟩
    show match c.pc with | _ => _
    simp only [hpc]
    simp
  | yieldSet | sleepSet | sleepTidy | exitSet => exact absurd rfl ho
  | _ => exact ⟨hh, hp⟩

/-- A critical section without the process's lock leaves its state. -/
theorem edit_unlocked (c : PRec n C K R) (hl : pc.lock o ≠ some q) : (f c).state = c.state := by
  cases he with
  | reparent | wait | forkParent | sleepTidy => rfl
  | _ => exact absurd rfl hl

/-- A critical section on a process that another CPU executes. -/
theorem edit_running (hg : g c) (ho : o ≠ some q) (hs : c.state = .running)
    (hc : pc.child ≠ some q) :
    (f c).state = .running := by
  cases he with
  | wakeBody o h x i =>
    unfold Sched.wakeBody
    rw [if_neg (by rw [hs]; exact fun h => nomatch h.1)]
    exact hs
  | killHit p pid i =>
    unfold Sched.killBody
    rw [if_neg (by rw [hs]; exact nofun)]
    exact hs
  | forkFound p i pid =>
    have hg : c.state = .unused := hg
    rw [hs] at hg
    cases hg
  | schedRun i => rfl
  | forkRunnable p i => exact absurd rfl hc
  | yieldSet | sleepSet | exitSet => exact absurd rfl ho
  | _ => exact hs

/-- A critical section on a slot that a fork has claimed. -/
theorem edit_used (hg : g c)
    (ho : o ≠ some q) (hs : c.state = .used) (hc : pc.child ≠ some q) : (f c).state = .used := by
  cases he with
  | wakeBody o h x i =>
    unfold Sched.wakeBody
    rw [if_neg (by rw [hs]; exact fun h => nomatch h.1)]
    exact hs
  | killHit p pid i =>
    unfold Sched.killBody
    rw [if_neg (by rw [hs]; exact nofun)]
    exact hs
  | forkFound p i pid => rfl
  | schedRun i =>
    have hg : c.state = .runnable := hg
    rw [hs] at hg
    cases hg
  | forkRunnable p i => exact absurd rfl hc
  | yieldSet | sleepSet | exitSet => exact absurd rfl ho
  | _ => exact hs

/-- Only `sleep` sets the channel. -/
theorem edit_chan (c : PRec n C K R) : (o ≠ some q → (f c).chan = c.chan) ∧
      ∀ x k, pc' = .sleep3 x k → o = some q ∧ (f c).chan = some x := by
  cases he with
  | wakeBody o h x i =>
    refine ⟨fun _ => ?_, nofun⟩
    unfold Sched.wakeBody
    split <;> rfl
  | killHit p pid i =>
    refine ⟨fun _ => ?_, nofun⟩
    unfold Sched.killBody
    split <;> rfl
  | sleepSet p x k =>
    refine ⟨fun h => absurd rfl h, fun x' k' h => ?_⟩
    cases h
    exact ⟨rfl, rfl⟩
  | sleepTidy p x k => exact ⟨fun h => absurd rfl h, nofun⟩
  | _ => exact ⟨fun _ => rfl, nofun⟩

end

/-- `SLEEPING` is reached by setting it. -/
theorem not_sleep3 (he : Edge cfg o pc op pc') (h1 : ∀ q g f, op ≠ .edit q g f)
    (h2 : ∀ p b, op ≠ .swtchIn p b) (h3 : ∀ p b, op ≠ .iret p b) (x : C) (k : K) :
    pc' ≠ .sleep3 x k := by
  cases he with
  | sleepSet p x k => exact absurd rfl (h1 _ _ _)
  | schedSwtch i pc => exact absurd rfl (h2 _ _)
  | iret p b => exact absurd rfl (h3 _ _)
  | _ => exact nofun

/-- A fork keeps its slot, lets it go, or claims an unused one. -/
theorem child_eq (he : Edge cfg o pc op pc') (h1 : ∀ p b, op ≠ .swtchIn p b)
    (h2 : ∀ p b, op ≠ .intr p b) (h3 : ∀ p b, op ≠ .iret p b) :
    pc'.child = none ∨ pc'.child = pc.child ∧ (pc'.childPc = pc.childPc ∨ ∃ q r, op = .alloc q r) ∨
      ∃ i g f, op = .edit i g f ∧ pc' = .forkUsed i ∧ ∀ c, g c → c.state = .unused ∧
      (f c).state = .used := by
  cases he with
  | schedSwtch i pc => exact absurd rfl (h1 _ _)
  | intr p b hb => exact absurd rfl (h2 _ _)
  | iret p b => exact absurd rfl (h3 _ _)
  | forkFound p i pid => exact .inr (.inr ⟨i, _, _, rfl, rfl, fun c hc => ⟨hc, rfl⟩⟩)
  | forkAlloc p i r => exact .inr (.inl ⟨rfl, .inr ⟨_, _, rfl⟩⟩)
  | forkCopy | forkRelease | forkWait | forkParent | forkWaited | forkLock =>
    exact .inr (.inl ⟨rfl, .inl rfl⟩)
  | _ => exact .inl rfl

/-- While a fork keeps its slot, it leaves the state. -/
theorem edit_child (he : Edge cfg o pc (.edit q g f : Op n C K R) pc') (hc : pc.child = some q)
    (hc' : pc'.child = some q) (c : PRec n C K R) : (f c).state = c.state := by
  cases he with
  | forkParent p i => rfl
  | forkRunnable p i => cases hc'
  | _ => cases hc

/-- What is freed: a zombie, or a slot that the fork has claimed. -/
theorem of_free (he : Edge cfg o pc (.free q g : Op n C K R) pc') :
    (∃ p, o = some p) ∧ pc.lock o = some q ∧ pc.state = .running ∧ pc'.child = none ∧
      (pc.child = some q ∨ ∀ c, g c → c.state = .zombie) := by
  cases he with
  | waitFree p q => exact ⟨⟨p, rfl⟩, rfl, rfl, rfl, .inr fun _ h => h⟩
  | forkNoMem p i | forkUndo p i => exact ⟨⟨p, rfl⟩, rfl, rfl, rfl, .inl rfl⟩

theorem of_alloc {r : R} (he : Edge cfg o pc (.alloc q r : Op n C K R) pc') :
    (∃ p, o = some p) ∧ pc = .forkUsed q ∧ pc' = .forkMade q := by
  cases he with
  | forkAlloc p i r => exact ⟨⟨p, rfl⟩, rfl, rfl⟩

theorem of_copy (he : Edge cfg o pc (.copy p q : Op n C K R) pc') :
    o = some p ∧ pc = .forkMade q ∧ pc' = .forkCopied q := by
  cases he
  exact ⟨rfl, rfl, rfl⟩

theorem of_prepareReturn (he : Edge cfg o pc (.prepareReturn p : Op n C K R) pc') :
    o = some p ∧ pc = .kern false ∧ pc' = .ret := by
  cases he
  exact ⟨rfl, rfl, rfl⟩

/-- The scheduler starts a process that it has made `RUNNING`. -/
theorem starts_of (he : Edge cfg none pc op pc') (h1 : ∀ p b, op ≠ .swtchIn p b) {i : Fin n}
    (hs : pc'.starts i) : pc.starts i ∧ (∃ r, op = .load i r) ∨ pc = .schedIn i ∧
    ∃ g f, op = .edit i g f ∧
        ∀ c, g c → c.state = .runnable ∧ (f c).state = .running := by
  cases he with
  | schedSwtch i pc => exact absurd rfl (h1 _ _)
  | schedLoad j r =>
    obtain rfl : j = i := hs
    exact .inl ⟨rfl, r, rfl⟩
  | schedRun j =>
    obtain rfl : j = i := hs
    exact .inr ⟨rfl, _, _, rfl, fun c hc => ⟨hc, rfl⟩⟩
  | _ => exact hs.elim

end Edge

end Xv6.Sched
