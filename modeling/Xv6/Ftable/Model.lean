/-
  Open files: `kernel/file.c`, and the calls of `kernel/sysfile.c`, `kernel/pipe.c` and
  `kernel/proc.c` that make and drop references to the entries of `ftable`.

  Any number of processes are in these calls at once. A step of a process is what it does under
  `ftable.lock` or the lock of a pipe, or to its own `ofile`; the points in between are `Pc`. The
  answers of the rest of the system (what `sys_open` finds, the page that `kalloc` returns, whether
  `copyout` and `uvmcopy` succeed) are given with the events.

  Of an entry there are the type, the count, the two modes and the page of the pipe; of a pipe the
  two flags that say which ends are open. A page that is not a pipe is none. To use a pipe whose
  page has been freed is not a panic in the source; it is one here (`freedPipe`).
-/
import Xv6.Lib.Run
import Xv6.Param

namespace Xv6.Ftable

open Lib Function

/-! ## The state -/

instance : NeZero nfile := ⟨by decide⟩

instance : NeZero nofile := ⟨by decide⟩

/-- An entry of `ftable`. -/
abbrev Ent := Fin nfile

/-- A descriptor. -/
abbrev Fd := Fin nofile

/-- `FD_NONE`, `FD_PIPE`, `FD_INODE`, `FD_DEVICE`. -/
inductive FdType where
  | none
  | pipe
  | inode
  | device
  deriving DecidableEq

/-- `struct file`. -/
structure File where
  type : FdType
  ref : ℕ
  readable : Bool
  writable : Bool
  /-- The page of the pipe. -/
  pipe : ℕ

/-- `struct pipe`, without its bytes. -/
structure Pipe where
  readopen : Bool
  writeopen : Bool

/-- The end for writing or for reading is open. -/
def Pipe.isOpen (x : Pipe) (w : Bool) : Bool := if w then x.writeopen else x.readopen

/-- `pi->writeopen = 0` or `pi->readopen = 0`. -/
def Pipe.shut (x : Pipe) (w : Bool) : Pipe :=
  if w then { x with writeopen := false } else { x with readopen := false }

/-- What `sys_open` makes of the entry. -/
structure Mode where
  device : Bool
  readable : Bool
  writable : Bool

/-- Where `fileclose` returns to. -/
inductive After where
  /-- The other entries to close; then the call returns. -/
  | close (fs : List Ent)
  /-- `p->ofile[fd] = 0` in `kexit`. -/
  | clear (fd : Fd) (f : Ent)

inductive Pc (T : Type) where
  | unused
  | user
  /-- Allocated by a call of `kfork` that has not made it runnable. -/
  | embryo (parent : T)
  | openAlloc (m : Mode)
  | openFd (f : Ent) (m : Mode)
  | openSet (f : Ent) (m : Mode)
  /-- `sys_dup` has the slot, and is about to call `filedup`. -/
  | dupRef (f : Ent) (fd : Fd)
  | fileclose (f : Ent) (k : After)
  | pipeclose (page : ℕ) (writable : Bool) (k : After)
  | pipeAlloc0
  | pipeAlloc1 (rf : Ent)
  | pipePage (rf wf : Ent)
  | pipeFd0 (rf wf : Ent)
  | pipeFd1 (rf wf : Ent) (fd0 : Fd)
  | pipeCopy (rf wf : Ent) (fd0 fd1 : Fd)
  /-- The loop of `kfork` at `i`. -/
  | forkDup (np : T) (i : ℕ)
  /-- `np->ofile[fd] = f`. -/
  | forkSet (np : T) (fd : Fd) (f : Ent)
  /-- The loop of `kexit` at `i`. -/
  | exitScan (i : ℕ)
  | exitClear (fd : Fd) (f : Ent)

def After.next {T : Type} : After → Pc T
  | .close [] => .user
  | .close (f :: fs) => .fileclose f (.close fs)
  | .clear fd f => .exitClear fd f

inductive Panic where
  | filedup
  | fileclose
  | freedPipe
  deriving DecidableEq

structure St (T : Type) where
  file : Ent → File
  ofile : T → Fd → Option Ent
  pipe : ℕ → Option Pipe
  pc : T → Pc T
  panicked : Option Panic

section

variable {T : Type} [DecidableEq T]

namespace St

variable (s : St T) (p : T)

def jump (q : Pc T) : St T := { s with pc := update s.pc p q }

def setFile (f : Ent) (x : File) : St T := { s with file := update s.file f x }

/-- `p->ofile[fd] = v` -/
def setFd (fd : Fd) (v : Option Ent) : St T :=
  { s with ofile := update s.ofile p (update (s.ofile p) fd v) }

def panic (e : Panic) : St T := { s with panicked := some e }

/-! ## `file.c` and `pipe.c` -/

/-- The entry that `filealloc` finds. -/
def filealloc : Option Ent := (List.finRange nfile).find? fun f => (s.file f).ref = 0

/-- `filedup`, and on to `q`. -/
def filedup (f : Ent) (q : Pc T) : St T :=
  if (s.file f).ref < 1 then s.panic .filedup
  else (s.setFile f { s.file f with ref := (s.file f).ref + 1 }).jump p q

/-- The part of `fileclose` under the lock. -/
def fileclose (f : Ent) (k : After) : St T :=
  let x := s.file f
  if x.ref < 1 then s.panic .fileclose
  else if 0 < x.ref - 1 then (s.setFile f { x with ref := x.ref - 1 }).jump p k.next
  else (s.setFile f { x with ref := 0, type := .none }).jump p
    (if x.type = .pipe then .pipeclose x.pipe x.writable k else k.next)

def pipeclose (page : ℕ) (w : Bool) (k : After) : St T :=
  match s.pipe page with
  | none => s.panic .freedPipe
  | some x =>
    let x := x.shut w
    { s with
      pipe := update s.pipe page
        (if x.readopen = false ∧ x.writeopen = false then none else some x) }.jump p k.next

/-- The page of a new pipe and its two ends. -/
def newPipe (rf wf : Ent) (page : ℕ) : St T :=
  let s := { s with pipe := update s.pipe page (some ⟨true, true⟩) }
  let s := s.setFile rf { s.file rf with
    type := .pipe, readable := true, writable := false, pipe := page }
  s.setFile wf { s.file wf with type := .pipe, readable := false, writable := true, pipe := page }

end St

/-! ## `sysfile.c` -/

def argfd (o : Fd → Option Ent) (fd : ℤ) : Option (Fd × Ent) :=
  if h : 0 ≤ fd ∧ fd < nofile then
    (o ⟨fd.toNat, by omega⟩).map fun f => (⟨fd.toNat, by omega⟩, f)
  else none

/-- The slot that `fdalloc` finds. -/
def fdalloc (o : Fd → Option Ent) : Option Fd :=
  (List.finRange nofile).find? fun fd => (o fd).isNone

/-- A process begins a call, or goes on in it. -/
inductive Ev (T : Type) where
  /-- `sys_open`; none if it fails before `filealloc`. -/
  | sysOpen (m : Option Mode)
  | sysDup (fd : ℤ)
  | sysClose (fd : ℤ)
  | sysPipe
  /-- `kfork`; none if `allocproc` or `uvmcopy` fails. -/
  | kfork (np : Option T)
  | kexit
  /-- The next step; what `kalloc` returns, and whether `copyout` succeeds. -/
  | go (page : Option ℕ) (copied : Bool)

/-- The next step of a call. -/
def St.go (s : St T) (p : T) (page : Option ℕ) (copied : Bool) : Option (St T) :=
  match s.pc p with
  | .unused | .user | .embryo _ => none
  | .openAlloc m =>
    match s.filealloc with
    | some f => some ((s.setFile f { s.file f with ref := 1 }).jump p (.openFd f m))
    | none => some (s.jump p .user)
  | .openFd f m =>
    match fdalloc (s.ofile p) with
    | some fd => some ((s.setFd p fd (some f)).jump p (.openSet f m))
    | none => some (s.jump p (.fileclose f (.close [])))
  | .openSet f m =>
    some ((s.setFile f { s.file f with
      type := if m.device then .device else .inode, readable := m.readable, writable :=
        m.writable }).jump p .user)
  | .dupRef f _ => some (s.filedup p f .user)
  | .fileclose f k => some (s.fileclose p f k)
  | .pipeclose page w k => some (s.pipeclose p page w k)
  | .pipeAlloc0 =>
    match s.filealloc with
    | some f => some ((s.setFile f { s.file f with ref := 1 }).jump p (.pipeAlloc1 f))
    | none => some (s.jump p .user)
  | .pipeAlloc1 rf =>
    match s.filealloc with
    | some f => some ((s.setFile f { s.file f with ref := 1 }).jump p (.pipePage rf f))
    | none => some (s.jump p (.fileclose rf (.close [])))
  | .pipePage rf wf =>
    match page with
    | some page =>
      if (s.pipe page).isNone then some ((s.newPipe rf wf page).jump p (.pipeFd0 rf wf)) else none
    | none => some (s.jump p (.fileclose rf (.close [wf])))
  | .pipeFd0 rf wf =>
    match fdalloc (s.ofile p) with
    | some fd0 => some ((s.setFd p fd0 (some rf)).jump p (.pipeFd1 rf wf fd0))
    | none => some (s.jump p (.fileclose rf (.close [wf])))
  | .pipeFd1 rf wf fd0 =>
    match fdalloc (s.ofile p) with
    | some fd1 => some ((s.setFd p fd1 (some wf)).jump p (.pipeCopy rf wf fd0 fd1))
    | none => some ((s.setFd p fd0 none).jump p (.fileclose rf (.close [wf])))
  | .pipeCopy rf wf fd0 fd1 =>
    if copied then some (s.jump p .user)
    else some (((s.setFd p fd0 none).setFd p fd1 none).jump p (.fileclose rf (.close [wf])))
  | .forkDup np i =>
    if h : i < nofile then
      match s.ofile p ⟨i, h⟩ with
      | some f => some (s.filedup p f (.forkSet np ⟨i, h⟩ f))
      | none => some (s.jump p (.forkDup np (i + 1)))
    else some ((s.jump np .user).jump p .user)
  | .forkSet np fd f => some ((s.setFd np fd (some f)).jump p (.forkDup np (fd + 1)))
  | .exitScan i =>
    if h : i < nofile then
      match s.ofile p ⟨i, h⟩ with
      | some f => some (s.jump p (.fileclose f (.clear ⟨i, h⟩ f)))
      | none => some (s.jump p (.exitScan (i + 1)))
    else some (s.jump p .unused)
  | .exitClear fd _ => some ((s.setFd p fd none).jump p (.exitScan (fd + 1)))

/-- A call begins. -/
def St.call (s : St T) (p : T) : Ev T → Option (St T)
  | .sysOpen none => some s
  | .sysOpen (some m) => some (s.jump p (.openAlloc m))
  | .sysDup fd =>
    match argfd (s.ofile p) fd with
    | none => some s
    | some (_, f) =>
      match fdalloc (s.ofile p) with
      | none => some s
      | some fd => some ((s.setFd p fd (some f)).jump p (.dupRef f fd))
  | .sysClose fd =>
    match argfd (s.ofile p) fd with
    | none => some s
    | some (fd, f) => some ((s.setFd p fd none).jump p (.fileclose f (.close [])))
  | .sysPipe => some (s.jump p .pipeAlloc0)
  | .kfork none => some s
  | .kfork (some np) =>
    match s.pc np with
    | .unused => some ((s.jump np (.embryo p)).jump p (.forkDup np 0))
    | _ => none
  | .kexit => some (s.jump p (.exitScan 0))
  | .go _ _ => none

def St.act (s : St T) (l : T × Ev T) : Option (St T) :=
  match s.panicked, l.2 with
  | some _, _ => none
  | none, .go page copied => s.go l.1 page copied
  | none, e =>
    match s.pc l.1 with
    | .user => s.call l.1 e
    | _ => none

/-- One process, with no open files. -/
def boot (u : T) : St T where
  file := fun _ => ⟨.none, 0, false, false, 0⟩
  ofile := fun _ _ => none
  pipe := fun _ => none
  pc := fun p => if p = u then .user else .unused
  panicked := none

end

/-! ## References -/

/-- The descriptors in `o` for entry `f`. -/
def slots (o : Fd → Option Ent) (f : Ent) : ℕ := ∑ fd, if o fd = some f then 1 else 0

/-- The references that the code at a point holds, other than in descriptors. -/
def Pc.held {T : Type} : Pc T → List Ent
  | .openFd f _ | .pipeAlloc1 f | .forkSet _ _ f => [f]
  | .fileclose f (.close fs) => f :: fs
  | .pipeclose _ _ (.close fs) => fs
  | .pipePage rf wf | .pipeFd0 rf wf => [rf, wf]
  | .pipeFd1 _ wf _ => [wf]
  | _ => []

/-- The references that a descriptor has and the count does not: `sys_dup` has not taken its one
yet, `kexit` has dropped it already. -/
def Pc.owed {T : Type} : Pc T → List Ent
  | .dupRef f _ | .pipeclose _ _ (.clear _ f) | .exitClear _ f => [f]
  | _ => []

end Xv6.Ftable
