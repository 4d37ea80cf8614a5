/-
  `struct proc` (`kernel/proc.h`), what `allocproc`, `freeproc`, `kfork` and `kexit` do to its
  fields, and the dispatch of `kernel/syscall.c`.

  Memory is not modelled here: a page-table or trapframe pointer is a page number, 0 for null.
  A record holds the registers of its trapframe page. The fields that no modelled function
  reads (`lock`, `context`, `filter_mask`, the registers that are only saved and restored) are
  left out. `name` is the string up to its first NUL.

  Fields are written where the source writes them and nowhere else. In particular `scFilter`
  is set by `sys_set_filter` alone, and `allocproc` and `freeproc` leave it.
-/
import Xv6.Param

namespace Xv6.Process

/-- `enum procstate`. -/
inductive ProcState where
  | unused
  | used
  | sleeping
  | runnable
  | running
  | zombie
  deriving DecidableEq, Repr

/-- The registers of `struct trapframe` that the kernel reads or sets. -/
structure Trapframe where
  epc : BitVec 64
  sp : BitVec 64
  a0 : BitVec 64
  a1 : BitVec 64
  a7 : BitVec 64
  deriving DecidableEq, Repr

/-- A slot of the process table. -/
abbrev Slot := Fin nproc

instance : NeZero nproc := ⟨by decide⟩

/-- A sleep channel: the address of a `struct proc` (`kwait` sleeps on it), or another address. -/
inductive Chan where
  | proc (i : Slot)
  | addr (a : Nat)
  deriving DecidableEq, Repr

structure Proc where
  state : ProcState
  /-- The channel the process sleeps on, if any. -/
  chan : Option Chan
  killed : Bool
  xstate : Int
  pid : Int
  parent : Option Slot
  kstack : Nat
  sz : Nat
  pagetable : Nat
  kpagetable : Nat
  trapframe : Nat
  tf : Trapframe
  ofile : Fin nofile → Option Nat
  cwd : Option Nat
  name : String
  faultCount : Int
  scFilter : BitVec 64
  deriving DecidableEq

/-- A slot of the zeroed `proc[]` array. -/
def Proc.zero : Proc where
  state := .unused
  chan := none
  killed := false
  xstate := 0
  pid := 0
  parent := none
  kstack := 0
  sz := 0
  pagetable := 0
  kpagetable := 0
  trapframe := 0
  tf := ⟨0, 0, 0, 0, 0⟩
  ofile := fun _ => none
  cwd := none
  name := ""
  faultCount := 0
  scFilter := 0

/-- Store a return value in `p->trapframe->a0`. -/
def Proc.setA0 (p : Proc) (v : BitVec 64) : Proc :=
  { p with tf := { p.tf with a0 := v } }

/-- `nextpid + 1` in a 32-bit `int`. -/
def nextPid (pid : Int) : Int := (BitVec.ofInt 32 (pid + 1)).toInt

/-- The pages that `allocproc` obtains for a process. -/
structure ProcPages where
  trapframe : Nat
  pagetable : Nat
  kpagetable : Nat
  deriving DecidableEq, Repr

/-- `allocproc` once it has found the slot: the fields it sets before it asks for memory. -/
def allocFound (p : Proc) (pid : Int) : Proc :=
  { p with pid := pid, state := .used, faultCount := 0 }

/-- `allocproc` with all its pages. -/
def allocproc (p : Proc) (i : Slot) (pid : Int) (m : ProcPages) : Proc :=
  { allocFound p pid with
    trapframe := m.trapframe, pagetable := m.pagetable, kpagetable := m.kpagetable,
    kstack := kstackVa i }

/-- `freeproc`, apart from the memory it gives back. -/
def freeproc (p : Proc) : Proc :=
  { p with
    trapframe := 0, kpagetable := 0, pagetable := 0, sz := 0, pid := 0, parent := none, name := "",
    chan := none, killed := false, xstate := 0, state := .unused, kstack := 0 }

/-- What `kfork` copies from the parent `p` to the child `np` before it releases `np->lock`. -/
def forkCopy (p np : Proc) : Proc :=
  { np with
    sz := p.sz, tf := { p.tf with a0 := 0 },
    ofile := fun fd => match p.ofile fd with
      | some f => some f
      | none => np.ofile fd
    cwd := p.cwd, name := p.name }

/-- `kexit` up to `begin_op`'s matching `end_op`: files and current directory are closed. -/
def closeFiles (p : Proc) : Proc :=
  { p with ofile := fun _ => none, cwd := none }

/-! ## System calls -/

/-- The handlers named in `syscalls[]`. -/
inductive Syscall where
  | fork | exit | wait | pipe | read | kill | exec | fstat | chdir | dup | getpid | sbrk | pause
  | uptime | open | write | mknod | unlink | link | mkdir | close | hello | ps | memtest
  | testnolock | testlock | nullcall | getcycles | setFilter
  deriving DecidableEq, Repr

/-- `SYS_fork` .. `SYS_set_filter`. -/
def Syscall.num : Syscall → Nat
  | .fork => 1 | .exit => 2 | .wait => 3 | .pipe => 4 | .read => 5 | .kill => 6 | .exec => 7
  | .fstat => 8 | .chdir => 9 | .dup => 10 | .getpid => 11 | .sbrk => 12 | .pause => 13
  | .uptime => 14 | .open => 15 | .write => 16 | .mknod => 17 | .unlink => 18 | .link => 19
  | .mkdir => 20 | .close => 21 | .hello => 22 | .ps => 23 | .memtest => 24 | .testnolock => 25
  | .testlock => 26 | .nullcall => 27 | .getcycles => 28 | .setFilter => 29

/-- `syscalls[]`, entry 0 first. -/
def syscalls : List (Option Syscall) :=
  [none, some .fork, some .exit, some .wait, some .pipe, some .read, some .kill, some .exec,
    some .fstat, some .chdir, some .dup, some .getpid, some .sbrk, some .pause, some .uptime,
    some .open, some .write, some .mknod, some .unlink, some .link, some .mkdir, some .close,
    some .hello, some .ps, some .memtest, some .testnolock, some .testlock, some .nullcall,
    some .getcycles, some .setFilter]

/-- A register read as a 32-bit `int` (`argint`, and `int num = p->trapframe->a7`). -/
def argint (r : BitVec 64) : Int := (r.truncate 32).toInt

/-- The handler that `syscall` looks up for the number in `a7`. -/
def lookup (a7 : BitVec 64) : Option Syscall :=
  if 0 < argint a7 ∧ argint a7 < syscalls.length then (syscalls.getD (argint a7).toNat none)
  else none

/-- The filter test of `syscall`: the call goes through. -/
def filterAllows (f : BitVec 64) (c : Syscall) : Bool :=
  ¬ (f ≠ 0 ∧ (f >>> c.num) &&& 1 = 0)

/-! ## Lookups -/

/-- The shifted mask is tested at its lowest bit. -/
theorem shift_and_one (f : BitVec 64) (n : Nat) :
    (f >>> n) &&& 1#64 = 0#64 ↔ f.getLsbD n = false := by
  constructor
  · intro h
    have hbit := congrArg (fun v : BitVec 64 => v.getLsbD 0) h
    simpa using hbit
  · intro h
    apply BitVec.eq_of_getLsbD_eq
    intro i hi
    rcases Nat.eq_zero_or_pos i with rfl | hpos
    · simpa using h
    · have hone : (1#64).getLsbD i = false := by
        rw [BitVec.getLsbD_one]
        simp
        omega
      rw [BitVec.getLsbD_and, hone, Bool.and_false, BitVec.getLsbD_zero]

/-- The filter test in terms of the mask's bits. -/
theorem filterAllows_iff (f : BitVec 64) (c : Syscall) :
    filterAllows f c = true ↔ f = 0 ∨ f.getLsbD c.num = true := by
  have hbit := shift_and_one f c.num
  unfold filterAllows
  rw [decide_eq_true_iff]
  by_cases hf : f = 0#64
  · simp [hf]
  · simp [hf, hbit]

theorem filterAllows_zero (c : Syscall) : filterAllows 0 c = true :=
  (filterAllows_iff 0 c).2 (.inl rfl)

end Xv6.Process
