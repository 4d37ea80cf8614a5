/-
  The scheduler and what runs under it: `scheduler`, `sched`, `yield`, `sleep`, `wakeup`,
  `kkill`, `kexit`, `kwait`, `kfork` and `forkret` of `kernel/proc.c`, and the way into and out
  of the kernel (`usertrap`, `prepare_return`, `kerneltrap`, the trampoline).

  Any number of CPUs take turns. One step is one `acquire`, one `release` or one critical
  section. A position `Pc` names the place of a CPU in the code; `Edge` is the flow graph, with
  the operation `Op` of every edge. A CPU executes either its scheduler or one process; a process
  that has switched away keeps in its record the position at which it goes on.

  Kernel code that is not one of these functions is `kern`: it may take and release locks,
  `wakeup`, `kkill`, `yield`, `sleep`, fork, wait, exit or return to user mode, in any order. An
  interrupt handler (`kern true`) runs in a process, or in the scheduler's idle loop, wherever
  interrupts are on; it neither sleeps nor makes system calls.

  One channel, its lock and the condition that its sleepers wait for are singled out by `Cfg`.
  The code around `sleep` and `wakeup` follows the rules for that channel: the condition changes
  only under the lock; a process calls `sleep` with the lock held and the condition false; and
  who makes the condition true calls `wakeup` before the lock is released.

  A page table is a name, and so is the kernel stack of a slot. That the page table `allocproc`
  gets is in use nowhere else is the page allocator's business. `c->proc` is left out: `myproc()`
  is read only where it is the process that the CPU executes.
-/
import Xv6.Lib.Run
import Xv6.Process.Model

namespace Xv6.Sched

open Lib Process

/-! ## States -/

/-- The place of a CPU, or of a process that has switched away, in the code. The Boolean is
    `true` inside an interrupt handler. -/
inductive Pc (n : ℕ) (C K : Type) where
  | user
  /-- After `prepare_return`. -/
  | ret
  | kern (h : Bool)
  -- `wakeup`: before slot `i`, inside its critical section, after it
  | wake (h : Bool) (c : C) (i : ℕ)
  | wakeIn (h : Bool) (c : C) (i : Fin n)
  | wakeOut (h : Bool) (c : C) (i : Fin n)
  -- `kkill`
  | kill (pid : ℤ) (i : ℕ)
  | killIn (pid : ℤ) (i : Fin n)
  | killHit (i : Fin n)
  | killMiss (pid : ℤ) (i : Fin n)
  -- `yield`: with the lock, `RUNNABLE`, back from `sched`
  | yield1 (h : Bool)
  | yield2 (h : Bool)
  | yielded (h : Bool)
  -- `sleep`: called, with both locks, without `lk`, `SLEEPING`, back from `sched`, `chan` cleared,
  -- before `acquire(lk)`
  | sleep0 (c : C) (k : K)
  | sleep1 (c : C) (k : K)
  | sleep2 (c : C) (k : K)
  | sleep3 (c : C) (k : K)
  | asleep (c : C) (k : K)
  | awake (k : K)
  | relock (k : K)
  -- `kexit`: with both locks, `ZOMBIE`, without `wait_lock`, gone
  | exit1
  | exit2
  | exit3
  | dead
  -- `kwait`: a child seen, with its lock, done with it
  | wait0 (q : Fin n)
  | wait1 (q : Fin n)
  | wait2 (q : Fin n)
  -- `allocproc` and `kfork`
  | fork (i : ℕ)
  | forkIn (i : Fin n)
  | forkNo (i : Fin n)
  | forkUsed (i : Fin n)
  | forkMade (i : Fin n)
  | forkFail (i : Fin n)
  | forkCopied (i : Fin n)
  | forkDone (i : Fin n)
  | forkPar (i : Fin n)
  | forkPar' (i : Fin n)
  | forkSet (i : Fin n)
  | forkLast (i : Fin n)
  | forkRun (i : Fin n)
  /-- A slot that has no thread. -/
  | unborn
  /-- A new process before its first instruction. -/
  | forkret
  -- `scheduler`: before slot `i`, with its lock, `RUNNING`, its page table loaded, back from
  -- `swtch`, before the release
  | sched (i : ℕ)
  | schedIn (i : Fin n)
  | schedLoad (i : Fin n)
  | schedGo (i : Fin n)
  | schedBack (i : Fin n)
  | schedDone (i : Fin n)

/-- The `satp` register: `kernel_pagetable`, the kernel page table `r`, a user page table. -/
inductive Satp (n : ℕ) (R : Type) where
  | kernel
  | kpt (r : R)
  | user (p : Fin n)

/-- A stack: the CPU's own (`stack0`), none, or the kernel stack of a slot. -/
inductive Stack (n : ℕ) where
  | boot
  | null
  | kstack (i : Fin n)

structure Cpu (n : ℕ) (C K R : Type) where
  /-- The process it executes; none in the scheduler. -/
  on : Option (Fin n)
  pc : Pc n C K
  satp : Satp n R
  stack : Stack n

/-- `struct proc`, as far as it is used here. -/
structure PRec (n : ℕ) (C K R : Type) where
  state : ProcState
  chan : Option C
  pid : ℤ
  killed : Bool
  parent : Option (Fin n)
  kpagetable : Option R
  kstack : Stack n
  /-- `kernel_satp` and `kernel_sp` of the trapframe. -/
  tf : Satp n R × Stack n
  /-- The stack and the position of the saved context. -/
  sp : Stack n
  pc : Pc n C K
  /-- The position that an interrupt handler returns to. -/
  saved : Option (Pc n C K)

structure State (n : ℕ) (M C K R : Type) where
  cpu : M → Cpu n C K R
  proc : Fin n → PRec n C K R
  /-- The CPU that holds `p->lock`. -/
  plock : Fin n → Option M
  /-- The CPU that holds another lock. -/
  lock : K → Option M
  /-- The condition that the sleepers of the channel wait for. -/
  cond : Bool
  /-- The holder of the lock has made the condition true and not called `wakeup`. -/
  due : Bool
  /-- The holder of the lock has called `wakeup`. -/
  woke : Bool

/-- The channel that is looked at, and its lock; `wait_lock`; the slot of `initproc`. -/
structure Cfg (n : ℕ) (C K : Type) where
  chan : C
  lk : K
  waitLock : K
  initproc : Fin n

variable {n : ℕ} {M C K R : Type} [DecidableEq M] [DecidableEq C] [DecidableEq K]

/-! ## Critical sections -/

/-- The body of `wakeup`'s loop. -/
def wakeBody (c : C) (p : PRec n C K R) : PRec n C K R :=
  if p.state = .sleeping ∧ p.chan = some c then { p with state := .runnable } else p

/-- What `kkill` does to the process it has found. -/
def killBody (p : PRec n C K R) : PRec n C K R :=
  if p.state = .sleeping then { p with killed := true, state := .runnable }
  else { p with killed := true }

def freeproc (p : PRec n C K R) : PRec n C K R :=
  { p with
    state := .unused, chan := none, pid := 0, killed := false, parent := none, kpagetable := none,
    kstack := .null, pc := .unborn }

/-- `allocproc` with its pages: the kernel page table, the stack and the context. -/
def allocproc (i : Fin n) (r : R) (p : PRec n C K R) : PRec n C K R :=
  { p with
    kpagetable := some r, kstack := .kstack i, sp := .kstack i, pc := .forkret, saved := none }

/-! ## Operations -/

/-- What a step does besides moving on. -/
inductive Op (n : ℕ) (C K R : Type) where
  | skip
  | lock (q : Fin n)
  | unlock (q : Fin n)
  | acquire (k : K)
  | release (k : K)
  /-- A critical section on process `q`, where `g` holds. -/
  | edit (q : Fin n) (g : PRec n C K R → Prop) (f : PRec n C K R → PRec n C K R)
  /-- `freeproc(q)`, where `g` holds. -/
  | free (q : Fin n) (g : PRec n C K R → Prop)
  /-- `allocproc` gets the kernel page table `r` for slot `q`. -/
  | alloc (q : Fin n) (r : R)
  /-- The trapframe of `p` is copied to `q`. -/
  | copy (p q : Fin n)
  /-- The holder of the lock sets the condition. -/
  | change (v : Bool)
  /-- `wakeup(c)` is complete. -/
  | woken (c : C)
  /-- The call `sleep(c, k)`. -/
  | test (c : C) (k : K)
  /-- `swtch` to the scheduler, from process `p`, which goes on at `pc`. -/
  | swtchOut (p : Fin n) (pc : Pc n C K)
  /-- `swtch` to process `p`, which goes on at `pc`. -/
  | swtchIn (p : Fin n) (pc : Pc n C K)
  /-- `kvm_switch(p->kpagetable)`, for the page table `r`. -/
  | load (p : Fin n) (r : R)
  /-- `kvminithart`. -/
  | kernel
  | prepareReturn (p : Fin n)
  | userret (p : Fin n)
  | uservec (p : Fin n)
  /-- An interrupt at position `b` of process `p`, and the return from it. -/
  | intr (p : Fin n) (b : Pc n C K)
  | iret (p : Fin n) (b : Pc n C K)
  /-- The same in the scheduler. -/
  | idle

namespace State

variable (cfg : Cfg n C K) (s : State n M C K R)

def setCpu (m : M) (c : Cpu n C K R) : State n M C K R :=
  { s with cpu := Function.update s.cpu m c }

def setProc (q : Fin n) (p : PRec n C K R) : State n M C K R :=
  { s with proc := Function.update s.proc q p }

/-- CPU `m` moves on to `pc`. -/
def goto (m : M) (pc : Pc n C K) : State n M C K R :=
  s.setCpu m { s.cpu m with pc := pc }

def acquireLock (m : M) (k : K) : State n M C K R :=
  { s with lock := Function.update s.lock k (some m), woke := if k = cfg.lk then false else s.woke }

def releaseLock (k : K) : State n M C K R :=
  { s with lock := Function.update s.lock k none, woke := if k = cfg.lk then false else s.woke }

/-- CPU `m` holds no lock but those of processes. -/
def Unheld (m : M) : Prop := ∀ k, s.lock k ≠ some m

end State

namespace Op

variable (cfg : Cfg n C K)

/-- When CPU `m` can do it. A CPU that waits for a lock, and one that panics, does nothing. -/
def Enabled (s : State n M C K R) (m : M) : Op n C K R → Prop
  | .skip | .woken _ | .copy _ _ | .kernel | .userret _ | .uservec _ => True
  | .lock q => s.plock q = none
  | .unlock q => s.plock q = some m
  | .acquire k => s.lock k = none
  | .release k => s.lock k = some m ∧ (k = cfg.lk → s.due = false)
  | .edit q g _ => g (s.proc q)
  | .free q g => g (s.proc q)
  | .alloc _ r => ∀ p, (s.proc p).kpagetable ≠ some r
  | .change _ => s.lock cfg.lk = some m
  | .test c k => s.lock k = some m ∧ (c = cfg.chan → k = cfg.lk ∧ s.cond = false)
  | .swtchOut _ _ => s.Unheld m
  | .swtchIn p pc => (s.proc p).pc = pc
  | .load p r => (s.proc p).kpagetable = some r
  | .prepareReturn _ => s.Unheld m
  | .intr p _ => s.Unheld m ∧ (s.proc p).saved = none
  | .iret p b => s.Unheld m ∧ (s.proc p).saved = some b
  | .idle => s.Unheld m

def apply (s : State n M C K R) (m : M) : Op n C K R → State n M C K R
  | .skip | .test _ _ | .idle => s
  | .lock q => { s with plock := Function.update s.plock q (some m) }
  | .unlock q => { s with plock := Function.update s.plock q none }
  | .acquire k => s.acquireLock cfg m k
  | .release k => s.releaseLock cfg k
  | .edit q _ f => s.setProc q (f (s.proc q))
  | .free q _ => s.setProc q (freeproc (s.proc q))
  | .alloc q r => s.setProc q (allocproc q r (s.proc q))
  | .copy p q => s.setProc q { s.proc q with tf := (s.proc p).tf }
  | .change v =>
    { s with cond := v, due := if v then s.due || (!s.cond && !s.woke) else false }
  | .woken c =>
    if c = cfg.chan ∧ s.lock cfg.lk = some m then { s with due := false, woke := true } else s
  | .swtchOut p pc =>
    (s.setProc p { s.proc p with sp := (s.cpu m).stack, pc := pc }).setCpu m
      { s.cpu m with on := none, stack := .boot }
  | .swtchIn p _ => s.setCpu m { s.cpu m with on := some p, stack := (s.proc p).sp }
  | .load _ r => s.setCpu m { s.cpu m with satp := .kpt r }
  | .kernel => s.setCpu m { s.cpu m with satp := .kernel }
  | .prepareReturn p => s.setProc p { s.proc p with tf := ((s.cpu m).satp, (s.proc p).kstack) }
  | .userret p => s.setCpu m { s.cpu m with satp := .user p }
  | .uservec p =>
    s.setCpu m { s.cpu m with satp := (s.proc p).tf.1, stack := (s.proc p).tf.2 }
  | .intr p b => s.setProc p { s.proc p with saved := some b }
  | .iret p _ => s.setProc p { s.proc p with saved := none }

/-- The process that the step frees. -/
def frees : Op n C K R → Option (Fin n)
  | .free q _ => some q
  | _ => none

end Op

/-! ## The flow graph -/

/-- Positions of a process at which interrupts are on. -/
def Pc.interruptible : Pc n C K → Prop
  | .kern false | .wake false _ _ | .kill _ _ | .relock _ | .fork _ | .forkDone _
  | .forkSet _ => True
  | _ => False

/-- The steps of a CPU that executes process `self`, or its scheduler. -/
inductive Edge (cfg : Cfg n C K) : Option (Fin n) → Pc n C K → Op n C K R → Pc n C K → Prop
  -- kernel code
  | acquire (o h k) : Edge cfg o (.kern h) (.acquire k) (.kern h)
  | release (o h k) : Edge cfg o (.kern h) (.release k) (.kern h)
  | change (o h v) : Edge cfg o (.kern h) (.change v) (.kern h)
  -- `wakeup`
  | wakeup (o h c) : Edge cfg o (.kern h) .skip (.wake h c 0)
  | wakeSelf (h c) (i : Fin n) : Edge cfg (some i) (.wake h c i) .skip (.wake h c (i + 1))
  | wakeAcquire (o h c) (i : Fin n) (hi : o ≠ some i) :
      Edge cfg o (.wake h c i) (.lock i) (.wakeIn h c i)
  | wakeBody (o h c i) :
      Edge cfg o (.wakeIn h c i) (.edit i (fun _ => True) (wakeBody c)) (.wakeOut h c i)
  | wakeRelease (o h c i) : Edge cfg o (.wakeOut h c i) (.unlock i) (.wake h c (i + 1))
  | wakeEnd (o h c) (i : ℕ) (hi : n ≤ i) : Edge cfg o (.wake h c i) (.woken c) (.kern h)
  -- `kkill`
  | kkill (p pid) : Edge cfg (some p) (.kern false) .skip (.kill pid 0)
  | killAcquire (p pid) (i : Fin n) :
      Edge cfg (some p) (.kill pid i) (.lock i) (.killIn pid i)
  | killHit (p pid i) :
      Edge cfg (some p) (.killIn pid i) (.edit i (fun q => q.pid = pid) killBody) (.killHit i)
  | killMiss (p pid i) :
      Edge cfg (some p) (.killIn pid i) (.edit i (fun q => q.pid ≠ pid) id) (.killMiss pid i)
  | killReturn (p i) : Edge cfg (some p) (.killHit i) (.unlock i) (.kern false)
  | killNext (p pid i) : Edge cfg (some p) (.killMiss pid i) (.unlock i) (.kill pid (i + 1))
  | killEnd (p pid) (i : ℕ) (hi : n ≤ i) : Edge cfg (some p) (.kill pid i) .skip (.kern false)
  -- `yield`
  | yield (p h) : Edge cfg (some p) (.kern h) (.lock p) (.yield1 h)
  | yieldSet (p h) :
      Edge cfg (some p) (.yield1 h)
        (.edit p (fun _ => True) fun q => { q with state := .runnable }) (.yield2 h)
  | yieldSched (p h) : Edge cfg (some p) (.yield2 h) (.swtchOut p (.yielded h)) (.schedBack p)
  | yieldRelease (p h) : Edge cfg (some p) (.yielded h) (.unlock p) (.kern h)
  -- `sleep`
  | sleep (p c k) : Edge cfg (some p) (.kern false) (.test c k) (.sleep0 c k)
  | sleepAcquire (p c k) : Edge cfg (some p) (.sleep0 c k) (.lock p) (.sleep1 c k)
  | sleepRelease (p c k) : Edge cfg (some p) (.sleep1 c k) (.release k) (.sleep2 c k)
  | sleepSet (p c k) :
      Edge cfg (some p) (.sleep2 c k)
        (.edit p (fun _ => True) fun q => { q with chan := some c, state := .sleeping })
        (.sleep3 c k)
  | sleepSched (p c k) :
      Edge cfg (some p) (.sleep3 c k) (.swtchOut p (.asleep c k)) (.schedBack p)
  | sleepTidy (p c k) :
      Edge cfg (some p) (.asleep c k) (.edit p (fun _ => True) fun q => { q with chan := none })
        (.awake k)
  | sleepUnlock (p k) : Edge cfg (some p) (.awake k) (.unlock p) (.relock k)
  | sleepRelock (p k) : Edge cfg (some p) (.relock k) (.acquire k) (.kern false)
  -- `kexit`, with `wait_lock` held and the parent woken
  | reparent (p q) :
      Edge cfg (some p) (.kern false)
        (.edit q (fun c => c.parent = some p) fun c => { c with parent := some cfg.initproc })
        (.kern false)
  | exit (p) : Edge cfg (some p) (.kern false) (.lock p) .exit1
  | exitSet (p) :
      Edge cfg (some p) .exit1 (.edit p (fun _ => True) fun q => { q with state := .zombie }) .exit2
  | exitRelease (p) : Edge cfg (some p) .exit2 (.release cfg.waitLock) .exit3
  | exitSched (p) : Edge cfg (some p) .exit3 (.swtchOut p .dead) (.schedBack p)
  -- `kwait`, with `wait_lock` held
  | wait (p q) :
      Edge cfg (some p) (.kern false) (.edit q (fun c => c.parent = some p) id) (.wait0 q)
  | waitAcquire (p q) : Edge cfg (some p) (.wait0 q) (.lock q) (.wait1 q)
  | waitFree (p q) :
      Edge cfg (some p) (.wait1 q) (.free q fun c => c.state = .zombie) (.wait2 q)
  | waitSkip (p q) : Edge cfg (some p) (.wait1 q) .skip (.wait2 q)
  | waitRelease (p q) : Edge cfg (some p) (.wait2 q) (.unlock q) (.kern false)
  -- `allocproc` and `kfork`
  | fork (p) : Edge cfg (some p) (.kern false) .skip (.fork 0)
  | forkAcquire (p) (i : Fin n) : Edge cfg (some p) (.fork i) (.lock i) (.forkIn i)
  | forkTaken (p i) :
      Edge cfg (some p) (.forkIn i) (.edit i (fun q => q.state ≠ .unused) id) (.forkNo i)
  | forkNext (p i) : Edge cfg (some p) (.forkNo i) (.unlock i) (.fork (i + 1))
  | forkFull (p) (i : ℕ) (hi : n ≤ i) : Edge cfg (some p) (.fork i) .skip (.kern false)
  | forkFound (p i pid) :
      Edge cfg (some p) (.forkIn i)
        (.edit i (fun q => q.state = .unused) fun q => { q with pid := pid, state := .used })
        (.forkUsed i)
  | forkAlloc (p i r) : Edge cfg (some p) (.forkUsed i) (.alloc i r) (.forkMade i)
  | forkNoMem (p i) : Edge cfg (some p) (.forkUsed i) (.free i fun _ => True) (.forkFail i)
  | forkUndo (p i) : Edge cfg (some p) (.forkMade i) (.free i fun _ => True) (.forkFail i)
  | forkFail (p i) : Edge cfg (some p) (.forkFail i) (.unlock i) (.kern false)
  | forkCopy (p i) : Edge cfg (some p) (.forkMade i) (.copy p i) (.forkCopied i)
  | forkRelease (p i) : Edge cfg (some p) (.forkCopied i) (.unlock i) (.forkDone i)
  | forkWait (p i) : Edge cfg (some p) (.forkDone i) (.acquire cfg.waitLock) (.forkPar i)
  | forkParent (p i) :
      Edge cfg (some p) (.forkPar i)
        (.edit i (fun _ => True) fun q => { q with parent := some p }) (.forkPar' i)
  | forkWaited (p i) : Edge cfg (some p) (.forkPar' i) (.release cfg.waitLock) (.forkSet i)
  | forkLock (p i) : Edge cfg (some p) (.forkSet i) (.lock i) (.forkLast i)
  | forkRunnable (p i) :
      Edge cfg (some p) (.forkLast i)
        (.edit i (fun _ => True) fun q => { q with state := .runnable }) (.forkRun i)
  | forkReturn (p i) : Edge cfg (some p) (.forkRun i) (.unlock i) (.kern false)
  | forkret (p) : Edge cfg (some p) .forkret (.unlock p) (.kern false)
  -- into and out of the kernel
  | prepareReturn (p) : Edge cfg (some p) (.kern false) (.prepareReturn p) .ret
  | userret (p) : Edge cfg (some p) .ret (.userret p) .user
  | uservec (p) : Edge cfg (some p) .user (.uservec p) (.kern false)
  | intr (p b) (hb : b.interruptible) : Edge cfg (some p) b (.intr p b) (.kern true)
  | iret (p b) : Edge cfg (some p) (.kern true) (.iret p b) b
  -- `scheduler`
  | schedIntr : Edge cfg none (.sched 0) .skip (.kern true)
  | schedIret : Edge cfg none (.kern true) .idle (.sched 0)
  | schedAcquire (i : Fin n) : Edge cfg none (.sched i) (.lock i) (.schedIn i)
  | schedWrap (i : ℕ) (hi : n ≤ i) : Edge cfg none (.sched i) .skip (.sched 0)
  | schedSkip (i) :
      Edge cfg none (.schedIn i) (.edit i (fun q => q.state ≠ .runnable) id) (.schedDone i)
  | schedRun (i) :
      Edge cfg none (.schedIn i)
        (.edit i (fun q => q.state = .runnable) fun q => { q with state := .running })
        (.schedLoad i)
  | schedLoad (i r) : Edge cfg none (.schedLoad i) (.load i r) (.schedGo i)
  | schedSwtch (i pc) : Edge cfg none (.schedGo i) (.swtchIn i pc) pc
  | schedBack (i) : Edge cfg none (.schedBack i) .kernel (.schedDone i)
  | schedRelease (i) : Edge cfg none (.schedDone i) (.unlock i) (.sched (i + 1))

/-- A step of a CPU, labelled with it and with the process that it frees. -/
def Step (cfg : Cfg n C K) (s : State n M C K R) (l : M × Option (Fin n)) (s' : State n M C K R) :
    Prop :=
  ∃ op pc, Edge cfg (s.cpu l.1).on (s.cpu l.1).pc op pc ∧ op.Enabled cfg s l.1 ∧
    l.2 = op.frees ∧ s' = (op.apply cfg s l.1).goto l.1 pc

/-- After `main`: every CPU in its scheduler, one process, made by `userinit`, that waits. -/
def init (cfg : Cfg n C K) (r : R) (pid : ℤ) (cond : Bool) : State n M C K R where
  cpu := fun _ => ⟨none, .sched 0, .kernel, .boot⟩
  proc := fun i =>
    if i = cfg.initproc then
      ⟨.runnable, none, pid, false, none, some r, .kstack i, (.kernel, .boot), .kstack i,
        .forkret, none⟩
    else ⟨.unused, none, 0, false, none, none, .null, (.kernel, .boot), .null, .unborn, none⟩
  plock := fun _ => none
  lock := fun _ => none
  cond := cond
  due := false
  woke := false

end Xv6.Sched
