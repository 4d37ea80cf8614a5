/-
  Parents and children: `kfork`, `kexit`, `reparent` and `kwait` of `kernel/proc.c`, with
  `wait_lock` and the lock of every process.

  The kernel thread of a slot stands at a position `Pc`. One step is one `acquire`, one `release`,
  or one access that a lock protects; `edge` gives the operation of the thread's next step and the
  position behind it. Any number of threads take turns, so a step of one falls between any two
  steps of another. A choice that the rest of the kernel makes (which call comes next, whether an
  allocation or a copy to user memory fails) is part of the event.

  The scheduler takes `p->lock`, sets `RUNNING` and switches to the thread, which then holds the
  lock; a thread that gives up the CPU switches with its own lock held, and the scheduler releases
  it. `kkill`, and a `wakeup` on a channel that is not looked at here, are critical sections of one
  lock and one event each.

  `serial`, `made`, `exited`, `collected` and `returned` are history: nothing reads them. A pid
  comes round after 2^32 processes; the serial number of a process is its own.
-/
import Xv6.Lib.Run
import Xv6.Process.Model

namespace Xv6.Family

open Lib Function
open Process (ProcState nextPid)

variable {n : ℕ}

/-! ## States -/

/-- A channel: a process (`kwait` sleeps on it), or another address. -/
inductive Chan (n : ℕ) where
  | proc (i : Fin n)
  | other
  deriving DecidableEq

/-- How a thread gives up the CPU: `yield`, `sleep` in other code, `sleep` in `kwait`. -/
inductive Rest where
  | yield
  | sleep
  | wait
  deriving DecidableEq

/-- What `kwait` returns of a process, with its serial number. -/
structure Report where
  serial : ℕ
  pid : ℤ
  status : ℤ
  deriving DecidableEq

/-- Where `kexit(status)` goes on after `wakeup`. -/
inductive After where
  | reparent (k : ℕ)
  | lock
  deriving DecidableEq

inductive Pc (n : ℕ) where
  /-- No thread, or one that is gone. -/
  | gone
  /-- In user space or in other kernel code. -/
  | free
  -- `kfork`, with `allocproc`
  | forkScan (i : ℕ)
  | forkLook (i : Fin n)
  | forkNext (i : Fin n)
  | forkMade (i : Fin n)
  | forkFail (i : Fin n)
  | forkCopied (i : Fin n)
  | forkWait (i : Fin n)
  | forkLink (i : Fin n)
  | forkLinked (i : Fin n)
  | forkLock (i : Fin n)
  | forkRun (i : Fin n)
  | forkDone (i : Fin n)
  -- `kexit(st)`, with `reparent` and `wakeup(c)`
  | exitWait (st : ℤ)
  | reparent (st : ℤ) (k : ℕ)
  | wake (st : ℤ) (c : Option (Fin n)) (i : ℕ) (a : After)
  | wakeIn (st : ℤ) (c : Option (Fin n)) (i : Fin n) (a : After)
  | wakeOut (st : ℤ) (c : Option (Fin n)) (i : Fin n) (a : After)
  | exitLock (st : ℤ)
  | exitSet (st : ℤ)
  | exitRelease
  | exitSched
  -- `kwait`
  | waitStart
  | waitScan (k : ℕ) (havekids : Bool)
  | waitChild (k : Fin n)
  | waitLook (k : Fin n)
  | waitKeep (k : Fin n)
  | waitBad (k : Fin n)
  | waitFreed (k : Fin n) (r : Report)
  | waitKilled
  | waitSeen
  | waitDone (r : Option Report)
  -- `yield` and `sleep`, with `sched`
  | rest (m : Rest)
  | restIn (m : Rest)
  | restOut (m : Rest)
  | restSet (m : Rest)
  | away (m : Rest)
  | back (m : Rest)
  | backOut (m : Rest)
  deriving DecidableEq

/-- `struct proc`, as far as it is used here. -/
structure Proc (n : ℕ) where
  state : ProcState
  chan : Option (Chan n)
  killed : Bool
  xstate : ℤ
  pid : ℤ
  parent : Option (Fin n)
  serial : ℕ

structure Table (n : ℕ) where
  proc : Fin n → Proc n
  pc : Fin n → Pc n
  /-- The thread that holds `p->lock`. -/
  plock : Fin n → Option (Fin n)
  /-- The thread that holds `wait_lock`. -/
  waitLock : Option (Fin n)
  nextpid : ℤ
  /-- How many processes there have been. -/
  made : ℕ
  /-- The processes that have become zombies. -/
  exited : List Report
  /-- The zombies that were freed, with the process whose `kwait` freed them. -/
  collected : List (Fin n × Report)
  /-- What calls of `kwait` have returned. -/
  returned : List (Fin n × Report)

/-- What is reported of a zombie. -/
def Proc.report (p : Proc n) : Report := ⟨p.serial, p.pid, p.xstate⟩

def Proc.unused : Proc n := ⟨.unused, none, false, 0, 0, none, 0⟩

/-- After `userinit`: one process, ready to run. -/
def boot (init : Fin n) : Table n where
  proc := fun i => if i = init then ⟨.runnable, none, false, 0, 1, none, 0⟩ else .unused
  pc := fun i => if i = init then .away .yield else .gone
  plock := fun _ => none
  waitLock := none
  nextpid := 2
  made := 1
  exited := []
  collected := []
  returned := []

/-! ## Operations -/

/-- What a step does besides moving on. -/
inductive Op (n : ℕ) where
  | skip
  | lock (i : Fin n)
  | unlock (i : Fin n)
  | waitAcquire
  | waitRelease
  /-- `allocproc` takes the slot. -/
  | take (i : Fin n)
  /-- `freeproc`, after an allocation has failed. -/
  | drop (i : Fin n)
  /-- `np->parent = p` -/
  | link (i : Fin n)
  /-- `np->state = RUNNABLE` -/
  | start (i : Fin n)
  /-- `pp->parent = initproc` -/
  | adopt (k : Fin n)
  /-- The body of `wakeup`. -/
  | wake (c : Option (Fin n)) (i : Fin n)
  /-- `p->xstate = status; p->state = ZOMBIE` -/
  | zombie (st : ℤ)
  /-- `freeproc` of a zombie. -/
  | collect (k : Fin n)
  /-- `kwait` releases `wait_lock` and returns. -/
  | ret (r : Option Report)
  /-- The state and the channel that a thread gives itself before `sched`. -/
  | rest (m : Rest)
  /-- `p->chan = 0` -/
  | tidy

def freeproc (p : Proc n) : Proc n :=
  { p with state := .unused, chan := none, killed := false, xstate := 0, pid := 0, parent := none }

def Rest.state : Rest → ProcState
  | .yield => .runnable
  | .sleep | .wait => .sleeping

def Rest.chan (p : Fin n) (old : Option (Chan n)) : Rest → Option (Chan n)
  | .yield => old
  | .sleep => some .other
  | .wait => some (.proc p)

/-- `if(p->state == SLEEPING && p->chan == chan) p->state = RUNNABLE` -/
def wakeBody (c : Option (Fin n)) (p : Proc n) : Proc n :=
  if p.state = .sleeping ∧ p.chan = c.map .proc then { p with state := .runnable } else p

namespace Table

variable (t : Table n)

def setProc (i : Fin n) (p : Proc n) : Table n := { t with proc := update t.proc i p }

def setPc (i : Fin n) (q : Pc n) : Table n := { t with pc := update t.pc i q }

def setLock (i : Fin n) (o : Option (Fin n)) : Table n :=
  { t with plock := update t.plock i o }

end Table

/-- An `acquire` waits until the lock is free. -/
def Op.Enabled (t : Table n) : Op n → Prop
  | .lock i => t.plock i = none
  | .waitAcquire => t.waitLock = none
  | _ => True

instance (t : Table n) (op : Op n) : Decidable (op.Enabled t) := by
  cases op <;> unfold Op.Enabled <;> infer_instance

/-- The operation, by thread `p`. -/
def Op.apply (init : Fin n) (t : Table n) (p : Fin n) : Op n → Table n
  | .skip => t
  | .lock i => t.setLock i (some p)
  | .unlock i => t.setLock i none
  | .waitAcquire => { t with waitLock := some p }
  | .waitRelease => { t with waitLock := none }
  | .take i =>
    { (t.setProc i { t.proc i with state := .used, pid := t.nextpid, serial := t.made }).setPc i
        (.away .yield) with nextpid := nextPid t.nextpid, made := t.made + 1 }
  | .drop i => (t.setProc i (freeproc (t.proc i))).setPc i .gone
  | .link i => t.setProc i { t.proc i with parent := some p }
  | .start i => t.setProc i { t.proc i with state := .runnable }
  | .adopt k => t.setProc k { t.proc k with parent := some init }
  | .wake c i => t.setProc i (wakeBody c (t.proc i))
  | .zombie st =>
    let q := { t.proc p with xstate := st, state := .zombie }
    { t.setProc p q with exited := q.report :: t.exited }
  | .collect k =>
    { t.setProc k (freeproc (t.proc k)) with collected := (p, (t.proc k).report) :: t.collected }
  | .ret r =>
    { t with
      waitLock := none
      returned := match r with
        | some r => (p, r) :: t.returned
        | none => t.returned }
  | .rest m => t.setProc p { t.proc p with state := m.state, chan := m.chan p (t.proc p).chan }
  | .tidy => t.setProc p { t.proc p with chan := none }

/-! ## The code -/

/-- What the rest of the kernel decides at a step. -/
inductive Choice where
  | go
  /-- An allocation or a copy to user memory fails. -/
  | fail
  | fork
  | exit (st : ℤ)
  | wait
  | yield
  | sleep

def After.pc (st : ℤ) : After → Pc n
  | .reparent k => .reparent st k
  | .lock => .exitLock st

/-- The next step of thread `p`, where it stands at the position given first. -/
def edge (init : Fin n) (t : Table n) (p : Fin n) : Pc n → Choice → Option (Op n × Pc n)
  | .free, .fork => some (.skip, .forkScan 0)
  -- the kernel panics when `initproc` exits
  | .free, .exit st => if p = init then none else some (.skip, .exitWait st)
  | .free, .wait => some (.skip, .waitStart)
  | .free, .yield => some (.skip, .rest .yield)
  | .free, .sleep => some (.skip, .rest .sleep)
  -- `allocproc`
  | .forkScan i, .go =>
    if h : i < n then some (.lock ⟨i, h⟩, .forkLook ⟨i, h⟩) else some (.skip, .free)
  | .forkLook i, .go =>
    if (t.proc i).state = .unused then some (.take i, .forkMade i) else some (.skip, .forkNext i)
  | .forkNext i, .go => some (.unlock i, .forkScan (i + 1))
  | .forkMade i, .fail => some (.drop i, .forkFail i)
  | .forkFail i, .go => some (.unlock i, .free)
  -- `kfork`
  | .forkMade i, .go => some (.skip, .forkCopied i)
  | .forkCopied i, .go => some (.unlock i, .forkWait i)
  | .forkWait i, .go => some (.waitAcquire, .forkLink i)
  | .forkLink i, .go => some (.link i, .forkLinked i)
  | .forkLinked i, .go => some (.waitRelease, .forkLock i)
  | .forkLock i, .go => some (.lock i, .forkRun i)
  | .forkRun i, .go => some (.start i, .forkDone i)
  | .forkDone i, .go => some (.unlock i, .free)
  -- `kexit`
  | .exitWait st, .go => some (.waitAcquire, .reparent st 0)
  | .reparent st k, .go =>
    if h : k < n then
      if (t.proc ⟨k, h⟩).parent = some p then
        some (.adopt ⟨k, h⟩, .wake st (some init) 0 (.reparent (k + 1)))
      else some (.skip, .reparent st (k + 1))
    else some (.skip, .wake st (t.proc p).parent 0 .lock)
  | .wake st c i a, .go =>
    if h : i < n then
      if i = p then some (.skip, .wake st c (i + 1) a)
      else some (.lock ⟨i, h⟩, .wakeIn st c ⟨i, h⟩ a)
    else some (.skip, a.pc st)
  | .wakeIn st c i a, .go => some (.wake c i, .wakeOut st c i a)
  | .wakeOut st c i a, .go => some (.unlock i, .wake st c (i + 1) a)
  | .exitLock st, .go => some (.lock p, .exitSet st)
  | .exitSet st, .go => some (.zombie st, .exitRelease)
  | .exitRelease, .go => some (.waitRelease, .exitSched)
  | .exitSched, .go => some (.unlock p, .gone)
  -- `kwait`
  | .waitStart, .go => some (.waitAcquire, .waitScan 0 false)
  | .waitScan k b, .go =>
    if h : k < n then
      if (t.proc ⟨k, h⟩).parent = some p then some (.skip, .waitChild ⟨k, h⟩)
      else some (.skip, .waitScan (k + 1) b)
    else if b then some (.skip, .waitKilled) else some (.skip, .waitDone none)
  | .waitChild k, .go => some (.lock k, .waitLook k)
  | .waitLook k, .go =>
    if (t.proc k).state = .zombie then some (.collect k, .waitFreed k (t.proc k).report)
    else some (.skip, .waitKeep k)
  | .waitLook k, .fail => if (t.proc k).state = .zombie then some (.skip, .waitBad k) else none
  | .waitKeep k, .go => some (.unlock k, .waitScan (k + 1) true)
  | .waitBad k, .go => some (.unlock k, .waitDone none)
  | .waitFreed k r, .go => some (.unlock k, .waitDone (some r))
  | .waitKilled, .go => some (.lock p, .waitSeen)
  | .waitSeen, .go => some (.unlock p, if (t.proc p).killed then .waitDone none else .rest .wait)
  | .waitDone r, .go => some (.ret r, .free)
  -- `yield` and `sleep`
  | .rest m, .go => some (.lock p, .restIn m)
  | .restIn .wait, .go => some (.waitRelease, .restOut .wait)
  | .restIn m, .go => some (.skip, .restOut m)
  | .restOut m, .go => some (.rest m, .restSet m)
  | .restSet m, .go => some (.unlock p, .away m)
  | .back m, .go => some (.tidy, .backOut m)
  | .backOut m, .go => some (.unlock p, if m = .wait then .waitStart else .free)
  | _, _ => none

inductive Ev (n : ℕ) where
  /-- The next step of a thread. -/
  | run (p : Fin n) (c : Choice)
  /-- The scheduler switches to a process. -/
  | schedule (i : Fin n)
  /-- `kkill` finds its process. -/
  | kill (i : Fin n)
  /-- Other code wakes a process that sleeps on another channel. -/
  | wakeup (i : Fin n)

def killBody (p : Proc n) : Proc n :=
  { p with killed := true, state := if p.state = .sleeping then .runnable else p.state }

def step (init : Fin n) (t : Table n) : Ev n → Option (Table n)
  | .run p c =>
    match edge init t p (t.pc p) c with
    | some (op, pc) => if op.Enabled t then some ((op.apply init t p).setPc p pc) else none
    | none => none
  | .schedule i =>
    match t.pc i with
    | .away m =>
      if t.plock i = none ∧ (t.proc i).state = .runnable then
        some (((t.setProc i { t.proc i with state := .running }).setLock i (some i)).setPc i
          (.back m))
      else none
    | _ => none
  | .kill i =>
    if t.plock i = none then some (t.setProc i (killBody (t.proc i))) else none
  | .wakeup i =>
    if t.plock i = none ∧ (t.proc i).state = .sleeping ∧ (t.proc i).chan = some .other then
      some (t.setProc i { t.proc i with state := .runnable })
    else none

end Xv6.Family
