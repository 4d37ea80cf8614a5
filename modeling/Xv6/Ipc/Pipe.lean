/-
  Pipes: `kernel/pipe.c`.

  A call of `pipewrite` or `piperead` is cut into segments, at every `sleep`: a segment runs
  under `pi->lock`, from `acquire` or the return of `sleep` to the next `sleep` or `release`.
  What a segment meets outside the pipe is given with it: the answers of `killed`, the bytes
  that `copyin` delivers or its failure, and the failures of `copyout`. A sleeping call may
  resume at any time; `wakeup` is not modelled.

  Any number of calls are in progress at a time, on the same pipe. Once both ends are closed
  the pipe is freed and nothing happens to it any more.
-/
import Xv6.Lib.Ring
import Xv6.Lib.Run

namespace Xv6.Ipc

open Lib Function

/-- `PIPESIZE`. -/
def pipeSize : ℕ := 512

instance : NeZero pipeSize := ⟨by decide⟩

/-- `struct pipe`, the lock apart. -/
structure Pipe extends Ring UInt8 pipeSize 32 where
  readopen : Bool
  writeopen : Bool

/-- `pi->data[pi->nwrite++ % PIPESIZE] = ch`. -/
def Pipe.put (p : Pipe) (ch : UInt8) : Pipe := { p with toRing := p.toRing.push ch }

/-- `pi->nread++`. -/
def Pipe.take (p : Pipe) : Pipe := { p with toRing := p.toRing.pop }

/-- How a segment ends: with the call's result, or asleep after `i` bytes. -/
inductive Outcome where
  | ret (r : ℤ)
  | sleep (i : ℕ)
  deriving DecidableEq

/-- What a segment meets, by the number of bytes the call has moved. -/
structure Env where
  killed : ℕ → Bool
  copyin : ℕ → Option UInt8
  copyout : ℕ → Bool

/-! ## The functions -/

/-- The loop of `pipewrite`, with `m` bytes to go: the pipe, the bytes accepted, the end. -/
def writeLoop (env : Env) : ℕ → ℕ → Pipe → Pipe × List UInt8 × Outcome
  | 0, i, p => (p, [], .ret i)
  | m + 1, i, p =>
    if p.readopen = false ∨ env.killed i then (p, [], .ret (-1))
    else if p.nwrite = p.nread + BitVec.ofNat 32 pipeSize then (p, [], .sleep i)
    else
      match env.copyin i with
      | none => (p, [], .ret i)
      | some ch =>
        let (p', bytes, o) := writeLoop env m (i + 1) (p.put ch)
        (p', ch :: bytes, o)

/-- A segment of `pipewrite`, after `i` bytes. -/
def pipewrite (env : Env) (n : ℤ) (i : ℕ) (p : Pipe) : Pipe × List UInt8 × Outcome :=
  writeLoop env (n.toNat - i) i p

/-- The `for` loop of `piperead`, with `m` bytes to go: the pipe, the bytes delivered, the end. -/
def readLoop (env : Env) : ℕ → ℕ → Pipe → Pipe × List UInt8 × Outcome
  | 0, i, p => (p, [], .ret i)
  | m + 1, i, p =>
    if p.nread = p.nwrite then (p, [], .ret i)
    else if env.copyout i then
      let (p', bytes, o) := readLoop env m (i + 1) p.take
      (p', p.head :: bytes, o)
    else (p, [], .ret (if i = 0 then -1 else i))

/-- A segment of `piperead`. -/
def piperead (env : Env) (n : ℤ) (p : Pipe) : Pipe × List UInt8 × Outcome :=
  if p.nread = p.nwrite ∧ p.writeopen then
    if env.killed 0 then (p, [], .ret (-1)) else (p, [], .sleep 0)
  else readLoop env n.toNat 0 p

def pipeclose (p : Pipe) (writable : Bool) : Pipe :=
  if writable then { p with writeopen := false } else { p with readopen := false }

/-! ## Calls in progress -/

inductive Call where
  | idle
  | write (n : ℤ) (i : ℕ)
  | read (n : ℤ)
  deriving DecidableEq

structure State where
  pipe : Pipe
  call : ℕ → Call

inductive Event where
  | write (t : ℕ) (n : ℤ)
  | read (t : ℕ) (n : ℤ)
  /-- The next segment of thread `t`'s call. -/
  | segment (t : ℕ) (env : Env)
  | close (writable : Bool)

/-- What an event moves through the pipe, and the result of a call that ends with it. -/
structure Io where
  accepted : List UInt8 := []
  delivered : List UInt8 := []
  result : Option ℤ := none

/-- After `pipealloc`, with the bytes that `kalloc` left in the page. -/
def init (data : Fin pipeSize → UInt8) : State where
  pipe := { data := data, nread := 0, nwrite := 0, readopen := true, writeopen := true }
  call := fun _ => .idle

/-- The call is over, or asleep as `c`. -/
def Outcome.call (c : ℕ → Call) : Outcome → Call
  | .ret _ => .idle
  | .sleep i => c i

def Outcome.result : Outcome → Option ℤ
  | .ret r => some r
  | .sleep _ => none

def act (s : State) (e : Event) : Option (State × Io) :=
  if s.pipe.readopen = false ∧ s.pipe.writeopen = false then none
  else
    match e with
    | .write t n =>
      if s.call t = .idle then some ({ s with call := update s.call t (.write n 0) }, {})
      else none
    | .read t n =>
      if s.call t = .idle then some ({ s with call := update s.call t (.read n) }, {})
      else none
    | .segment t env =>
      match s.call t with
      | .idle => none
      | .write n i =>
        let (p, bytes, o) := pipewrite env n i s.pipe
        some (⟨p, update s.call t (o.call (.write n))⟩,
          { accepted := bytes, result := o.result })
      | .read n =>
        let (p, bytes, o) := piperead env n s.pipe
        some (⟨p, update s.call t (o.call fun _ => .read n)⟩,
          { delivered := bytes, result := o.result })
    | .close writable => some ({ s with pipe := pipeclose s.pipe writable }, {})

/-- Events labelled with what they move. -/
def Step (s : State) (l : Event × Io) (s' : State) : Prop := act s l.1 = some (s', l.2)

/-- The bytes that `pipewrite` has accepted, in the order of the segments. -/
def accepted (tr : List (Event × Io)) : List UInt8 := tr.flatMap fun l => l.2.accepted

/-- The bytes that `piperead` has delivered, in the order of the segments. -/
def delivered (tr : List (Event × Io)) : List UInt8 := tr.flatMap fun l => l.2.delivered

end Xv6.Ipc
