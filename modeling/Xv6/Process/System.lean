/-
  The process table as a transition system: `kernel/proc.c`, with the parts of
  `kernel/trap.c` and `kernel/syscall.c` that lead into it.

  One event is one critical section of the source, or a stretch of code that touches only the
  calling process. `pos i` says where the kernel thread of slot `i` stands between two events.
  What the kernel's other parts decide (registers saved at a trap, pages that `kalloc` found,
  what a file-system call returned) is carried by the event, so `next` is a function.

  Atomicity. `allocproc` returns with `np->lock` held and `kfork` releases it after the copies,
  so the scan's last step, the allocations and the copies are one event. `kwait` and `kexit`
  serialise on `wait_lock`. `kkill` holds one `p->lock` at a time: its scan is one event a slot.
-/
import Xv6.Process.Model
import Xv6.Lib.Run

namespace Xv6.Process

open Function

/-- Where the kernel thread of a slot stands. -/
inductive Pos where
  /-- In user space, or past the last check on the way there. -/
  | user
  /-- `usertrap` is about to call `syscall`. -/
  | dispatch
  /-- Inside a handler with no position of its own below. -/
  | handler (c : Syscall)
  /-- `kfork` → `allocproc`, about to look at slot `k`. -/
  | forkScan (k : Nat)
  /-- `kfork`, `np->lock` released, about to take `wait_lock`. -/
  | forkLink (c : Slot) (pid : Int)
  /-- `kfork`, about to make the child runnable. -/
  | forkRun (c : Slot) (pid : Int)
  /-- `kkill(pid)`, about to look at slot `k`. -/
  | killScan (pid : Int) (k : Nat)
  /-- `kwait`, at the head of its loop. -/
  | waiting
  /-- `kexit(status)`, at its start. -/
  | exiting (status : Int)
  /-- `kexit(status)`, about to take `wait_lock`. -/
  | orphaning (status : Int)
  /-- Back in `usertrap`, before the last test of `killed`. -/
  | ret
  /-- A new process before its first instruction. -/
  | forkret
  /-- No thread, or one that gave up the CPU for good. -/
  | dead
  deriving DecidableEq, Repr

/-- `proc[]`, `initproc`, `nextpid`, and `forkret`'s static `first`. -/
structure Sys where
  proc : Slot → Proc
  pos : Slot → Pos
  initproc : Option Slot
  nextpid : Int
  first : Bool

attribute [ext] Sys

/-- The table before `userinit`. -/
def Sys.boot : Sys where
  proc := fun _ => Proc.zero
  pos := fun _ => .dead
  initproc := none
  nextpid := 1
  first := true

/-- What a successful `kexec` leaves in the process. -/
structure ExecResult where
  sz : Nat
  pagetable : Nat
  name : String
  epc : BitVec 64
  sp : BitVec 64
  argv : BitVec 64
  argc : BitVec 64

/-- What another handler (`sys_open`, `sys_chdir`, `sys_sbrk`, ...) leaves in the process. -/
structure SysResult where
  ofile : Fin nofile → Option Nat
  cwd : Option Nat
  sz : Nat
  value : BitVec 64

inductive Ev where
  | userinit (c : Slot) (m : ProcPages) (root : Nat)
  | schedule (i : Slot)
  | yield (i : Slot)
  | sleep (i : Slot) (ch : Chan)
  | wakeup (ch : Chan)
  /-- `usertrap` for anything but a system call; `fatal` when it calls `setkilled`. -/
  | trap (i : Slot) (tf : Trapframe) (fatal : Bool)
  /-- `usertrap` for a system call, up to the call of `syscall`. -/
  | ecall (i : Slot) (tf : Trapframe)
  /-- `syscall` up to the call of the handler. -/
  | dispatch (i : Slot)
  | setFilter (i : Slot)
  | exec (i : Slot) (r : Option ExecResult)
  | sysret (i : Slot) (r : SysResult)
  | forkSkip (i k : Slot)
  | forkFull (i : Slot)
  /-- `allocproc` takes slot `c`; `none` when a later allocation fails. -/
  | forkAlloc (i c : Slot) (m : Option ProcPages)
  | forkLink (i c : Slot) (pid : Int)
  | forkRun (i c : Slot) (pid : Int)
  | forkret (i : Slot) (r : Option ExecResult)
  | killSkip (i k : Slot) (pid : Int)
  | killHit (i k : Slot) (pid : Int)
  | killNone (i : Slot) (pid : Int)
  /-- `kwait` finds the zombie `c`; `copied` when the exit status could be copied out. -/
  | waitReap (i c : Slot) (copied : Bool)
  | waitNone (i : Slot)
  | waitSleep (i : Slot)
  | exitClose (i : Slot) (status : Int)
  | exitZombie (i : Slot) (status : Int)
  | ret (i : Slot)

/-! ## Guards -/

/-- Slot `i` has a CPU and its thread stands at `q`. -/
abbrev Sys.at_ (s : Sys) (i : Slot) (q : Pos) : Prop :=
  (s.proc i).state = .running ∧ s.pos i = q

/-- The positions at which the code may call `sleep` on something other than a child. -/
def Pos.maySleep : Pos → Bool
  | .handler _ | .exiting _ | .forkret => true
  | _ => false

abbrev Sys.zombieChild (s : Sys) (i c : Slot) : Prop :=
  (s.proc c).parent = some i ∧ (s.proc c).state = .zombie

/-- Handlers that have no event of their own. -/
def Syscall.plain : Syscall → Bool
  | .fork | .exit | .wait | .kill | .exec | .setFilter => false
  | _ => true

/-- Inside a handler that has no event of its own. -/
def Pos.plain : Pos → Bool
  | .handler c => c.plain
  | _ => false

/-- When an event can happen. -/
def enabled (s : Sys) : Ev → Bool
  | .userinit c _ _ =>
    s.initproc = none ∧ (s.proc c).state = .unused ∧ ∀ k < c, (s.proc k).state ≠ .unused
  | .schedule i => (s.proc i).state = .runnable
  | .yield i => (s.proc i).state = .running
  | .sleep i _ => (s.proc i).state = .running ∧ (s.pos i).maySleep
  | .wakeup _ => true
  | .trap i _ _ => s.at_ i .user
  | .ecall i _ => s.at_ i .user
  | .dispatch i => s.at_ i .dispatch
  | .setFilter i => s.at_ i (.handler .setFilter)
  | .exec i _ => s.at_ i (.handler .exec)
  | .sysret i _ => (s.proc i).state = .running ∧ (s.pos i).plain
  | .forkSkip i k => s.at_ i (.forkScan k) ∧ (s.proc k).state ≠ .unused
  | .forkFull i => s.at_ i (.forkScan nproc)
  | .forkAlloc i c _ => s.at_ i (.forkScan c) ∧ (s.proc c).state = .unused
  | .forkLink i c pid => s.at_ i (.forkLink c pid)
  | .forkRun i c pid => s.at_ i (.forkRun c pid)
  -- only the first process runs `kexec` here, and the kernel panics when that fails
  | .forkret i r => s.at_ i .forkret ∧ r.isSome = s.first
  | .killSkip i k pid => s.at_ i (.killScan pid k) ∧ (s.proc k).pid ≠ pid
  | .killHit i k pid => s.at_ i (.killScan pid k) ∧ (s.proc k).pid = pid
  | .killNone i pid => s.at_ i (.killScan pid nproc)
  | .waitReap i c copied =>
    s.at_ i .waiting ∧ s.zombieChild i c ∧ (∀ k < c, ¬ s.zombieChild i k) ∧
      (copied = false → (s.proc i).tf.a0 ≠ 0)
  | .waitNone i =>
    s.at_ i .waiting ∧ (∀ k, ¬ s.zombieChild i k) ∧
      ((∀ k, (s.proc k).parent ≠ some i) ∨ (s.proc i).killed)
  | .waitSleep i =>
    s.at_ i .waiting ∧ (∀ k, ¬ s.zombieChild i k) ∧
      (∃ k, (s.proc k).parent = some i) ∧ (s.proc i).killed = false
  -- the kernel panics when `initproc` exits
  | .exitClose i status => s.at_ i (.exiting status) ∧ s.initproc ≠ some i
  | .exitZombie i status => s.at_ i (.orphaning status)
  | .ret i => s.at_ i .ret

/-! ## Effects -/

def Sys.setProc (s : Sys) (i : Slot) (p : Proc) : Sys :=
  { s with proc := update s.proc i p }

def Sys.setPos (s : Sys) (i : Slot) (q : Pos) : Sys :=
  { s with pos := update s.pos i q }

/-- The handler of slot `i` returns `v`, which `syscall` stores in `a0`. -/
def Sys.sysret (s : Sys) (i : Slot) (v : BitVec 64) : Sys :=
  (s.setProc i ((s.proc i).setA0 v)).setPos i .ret

/-- A process after `wakeup(ch)`. -/
def wake (ch : Option Chan) (p : Proc) : Proc :=
  { p with state := if p.state = .sleeping ∧ p.chan = ch then .runnable else p.state }

/-- `reparent` for one process: the children of `i` go to `init`. -/
def reparent (i : Slot) (init : Option Slot) (p : Proc) : Proc :=
  { p with parent := if p.parent = some i then init else p.parent }

/-- `kexit` from `acquire(&wait_lock)` to `sched`. -/
def Sys.exitZombie (s : Sys) (i : Slot) (status : Int) : Sys :=
  let orphans := ∃ k, (s.proc k).parent = some i
  let table : Slot → Proc := fun j =>
    let p := reparent i s.initproc (s.proc j)
    let p := if orphans then wake (s.initproc.map .proc) p else p
    wake ((reparent i s.initproc (s.proc i)).parent.map .proc) p
  let s := { s with proc := table }
  (s.setProc i { s.proc i with xstate := status, state := .zombie }).setPos i .dead

/-- Where the thread stands once the handler of `c` is entered. -/
def Syscall.entry (c : Syscall) (tf : Trapframe) : Pos :=
  match c with
  | .fork => .forkScan 0
  | .exit => .exiting (argint tf.a0)
  | .wait => .waiting
  | .kill => .killScan (argint tf.a0) 0
  | c => .handler c

/-- `syscall`, up to the call of the handler. -/
def Sys.syscall (s : Sys) (i : Slot) : Sys :=
  match lookup (s.proc i).tf.a7 with
  | some c =>
    if filterAllows (s.proc i).scFilter c then s.setPos i (c.entry (s.proc i).tf)
    else (s.setProc i { s.proc i with killed := true }).sysret i (-1)
  | none => s.sysret i (-1)

/-- `kexec` commits to the new image and returns `argc`. -/
def execImage (p : Proc) (r : ExecResult) : Proc :=
  { p with
    name := r.name, pagetable := r.pagetable, sz := r.sz,
    tf := { p.tf with epc := r.epc, sp := r.sp, a1 := r.argv, a0 := r.argc } }

/-- `allocproc` on slot `c` and, when it has its pages, `kfork`'s copies. -/
def Sys.forkAlloc (s : Sys) (i c : Slot) (m : Option ProcPages) : Sys :=
  let s' := { s with nextpid := nextPid s.nextpid }
  match m with
  | none => (s'.setProc c (freeproc (allocFound (s.proc c) s.nextpid))).sysret i (-1)
  | some m =>
    ((s'.setProc c (forkCopy (s.proc i) (allocproc (s.proc c) c s.nextpid m))).setPos c
      .forkret).setPos i (.forkLink c s.nextpid)

/-- What an event does. -/
def next (s : Sys) : Ev → Sys
  | .userinit c m root =>
    ({ s with nextpid := nextPid s.nextpid, initproc := some c }.setProc c
      { allocproc (s.proc c) c s.nextpid m with cwd := some root, state := .runnable }).setPos c
      .forkret
  -- a thread that comes back from `sleep` clears its channel before anything else
  | .schedule i => s.setProc i { s.proc i with state := .running, chan := none }
  | .yield i => s.setProc i { s.proc i with state := .runnable }
  | .sleep i ch => s.setProc i { s.proc i with state := .sleeping, chan := some ch }
  | .wakeup ch => { s with proc := fun j => wake (some ch) (s.proc j) }
  | .trap i tf fatal =>
    (s.setProc i { s.proc i with tf := tf, killed := (s.proc i).killed || fatal }).setPos i .ret
  | .ecall i tf =>
    if (s.proc i).killed then (s.setProc i { s.proc i with tf := tf }).setPos i (.exiting (-1))
    else (s.setProc i { s.proc i with tf := { tf with epc := tf.epc + 4 } }).setPos i .dispatch
  | .dispatch i => s.syscall i
  | .setFilter i => (s.setProc i { s.proc i with scFilter := (s.proc i).tf.a0 }).sysret i 0
  | .exec i none => s.sysret i (-1)
  | .exec i (some r) => (s.setProc i (execImage (s.proc i) r)).setPos i .ret
  | .sysret i r =>
    (s.setProc i { s.proc i with ofile := r.ofile, cwd := r.cwd, sz := r.sz }).sysret i r.value
  | .forkSkip i k => s.setPos i (.forkScan (k + 1))
  | .forkFull i => s.sysret i (-1)
  | .forkAlloc i c m => s.forkAlloc i c m
  | .forkLink i c pid =>
    (s.setProc c { s.proc c with parent := some i }).setPos i (.forkRun c pid)
  | .forkRun i c pid =>
    (s.setProc c { s.proc c with state := .runnable }).sysret i (BitVec.ofInt 64 pid)
  | .forkret i none => s.setPos i .user
  | .forkret i (some r) =>
    ({ s with first := false }.setProc i (execImage (s.proc i) r)).setPos i .user
  | .killSkip i k pid => s.setPos i (.killScan pid (k + 1))
  | .killHit i k _ =>
    (s.setProc k { s.proc k with
      killed := true
      state := if (s.proc k).state = .sleeping then .runnable else (s.proc k).state }).sysret i 0
  | .killNone i _ => s.sysret i (-1)
  | .waitReap i c copied =>
    if copied then (s.setProc c (freeproc (s.proc c))).sysret i (BitVec.ofInt 64 (s.proc c).pid)
    else s.sysret i (-1)
  | .waitNone i => s.sysret i (-1)
  | .waitSleep i => s.setProc i { s.proc i with state := .sleeping, chan := some (.proc i) }
  | .exitClose i status => (s.setProc i (closeFiles (s.proc i))).setPos i (.orphaning status)
  | .exitZombie i status => s.exitZombie i status
  | .ret i => if (s.proc i).killed then s.setPos i (.exiting (-1)) else s.setPos i .user

def step (s : Sys) (e : Ev) : Option Sys :=
  if enabled s e then some (next s e) else none

theorem step_eq_some {s s' : Sys} {e : Ev} : step s e = some s' ↔ enabled s e = true ∧
    s' = next s e := by
  unfold step
  split
  · rename_i h
    simp [h, eq_comm]
  · rename_i h
    simp [h]

/-! ## Reading a changed table -/

section

variable (s : Sys) (i j : Slot)

include s i j

@[simp] theorem setProc_proc (p : Proc) :
    (s.setProc i p).proc j = if j = i then p else s.proc j := by
  unfold Sys.setProc
  exact update_apply s.proc i p j

@[simp] theorem setProc_pos (p : Proc) : (s.setProc i p).pos j = s.pos j :=
  rfl

@[simp] theorem setPos_proc (q : Pos) : (s.setPos i q).proc j = s.proc j :=
  rfl

@[simp] theorem setPos_pos (q : Pos) :
    (s.setPos i q).pos j = if j = i then q else s.pos j := by
  unfold Sys.setPos
  exact update_apply s.pos i q j

@[simp] theorem sysret_proc (v : BitVec 64) :
    (s.sysret i v).proc j = if j = i then (s.proc i).setA0 v else s.proc j := by
  unfold Sys.sysret
  rw [setPos_proc, setProc_proc]

@[simp] theorem sysret_pos (v : BitVec 64) :
    (s.sysret i v).pos j = if j = i then .ret else s.pos j := by
  unfold Sys.sysret
  rw [setPos_pos, setProc_pos]

end

/-! ## Short runs to start from -/

/-- `userinit`, and the first process up to its first instruction. -/
def bootRun : List Ev :=
  [.userinit 0 ⟨1, 2, 3⟩ 1, .schedule 0,
    .forkret 0 (some ⟨4096, 4, "init", 0, 0, 0, 1⟩)]

/-- Slot `i` makes system call `c` with first argument `a0`, up to the handler. -/
def Syscall.call (c : Syscall) (i : Slot) (a0 : BitVec 64) : List Ev :=
  [.ecall i ⟨0, 0, a0, 0, BitVec.ofNat 64 c.num⟩, .dispatch i]

/-- The first process forks a child, with this pid, into slot 1. -/
def forkChild (pid : Int) : List Ev :=
  Syscall.call .fork 0 0 ++
    [.forkSkip 0 0, .forkAlloc 0 1 (some ⟨5, 6, 7⟩), .forkLink 0 1 pid, .forkRun 0 1 pid, .ret 0]

end Xv6.Process
