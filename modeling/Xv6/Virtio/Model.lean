/-
  The disk driver: `kernel/virtio_disk.c`, with the device that it talks to.

  The available and the used ring have `NUM` cells and 16-bit counters that wrap. Of the available
  ring the driver moves `idx`, and the device how far it has looked; of the used ring the device
  moves `idx`, and the driver `used_idx`. A call of `virtio_disk_rw` is cut into segments at every
  `sleep`; a segment runs under `vdisk_lock`. The loop of `virtio_disk_intr` is cut at every round,
  as the device may return further requests in the meantime. Threads that sleep may go on at any
  time; they test again what they wait for.

  The device takes the heads of chains out of the available ring, and returns each of them once, in
  any order, with status 0. The content of the blocks is left out.
-/
import Xv6.Lib.Run
import Xv6.Lib.Ring

namespace Xv6.Virtio

open Lib Function

/-- `NUM`. -/
def num : ℕ := 8

instance : NeZero num := ⟨by decide⟩

/-- The number of a descriptor. -/
abbrev Ix := Fin num

/-- What a descriptor points to. -/
inductive Addr (B : Type) where
  | null
  /-- `&disk.ops[i]` -/
  | op (i : Ix)
  /-- `b->data` -/
  | data (b : B)
  /-- `&disk.info[i].status` -/
  | status (i : Ix)

/-- `struct virtq_desc`, with the two flags. -/
structure Desc (B : Type) where
  addr : Addr B
  len : ℕ
  hasNext : Bool
  write : Bool
  next : ℕ

structure Info (B : Type) where
  b : Option B
  status : UInt8

/-- `struct virtio_blk_req`. -/
structure Req where
  write : Bool
  sector : ℕ

/-- `idx[0]`, `idx[1]` and `idx[2]`. -/
structure Chain where
  head : Ix
  mid : Ix
  tail : Ix

def Chain.ixs (c : Chain) : List Ix := [c.head, c.mid, c.tail]

/-- Where a thread is with respect to `virtio_disk_rw`. -/
inductive Pc (B : Type) where
  | out
  /-- Asleep on `&disk.free[0]`. -/
  | alloc (b : B) (write : Bool)
  /-- Asleep on `b`. -/
  | wait (b : B) (c : Chain)

inductive Panic where
  | freeDesc1
  | freeDesc2
  | intrStatus
  /-- `virtio_disk_intr` finds no buffer. -/
  | noBuf
  /-- `free_chain` goes on for ever. -/
  | endless
  deriving DecidableEq

structure St (T B : Type) where
  desc : Ix → Desc B
  free : Ix → Bool
  /-- The heads that have been submitted; the device moves `nread`. -/
  avail : Ring Ix num 16
  /-- The heads that the device has returned; `nread` is `disk.used_idx`. -/
  used : Ring Ix num 16
  info : Ix → Info B
  ops : Ix → Req
  /-- `b->disk` -/
  disk : B → Bool
  /-- Who holds `b->lock`. -/
  lock : B → Option T
  /-- The heads that the device works on. -/
  taken : List Ix
  pc : T → Pc B
  panicked : Option Panic

variable {T B : Type}

namespace St

def panic (s : St T B) (e : Panic) : St T B := { s with panicked := some e }

/-! ## Descriptors -/

def allocDesc (s : St T B) : Option Ix × St T B :=
  match (List.finRange num).find? fun i => s.free i with
  | some i => (some i, { s with free := update s.free i false })
  | none => (none, s)

def freeDesc (i : ℕ) (s : St T B) : St T B :=
  if h : i < num then
    if s.free ⟨i, h⟩ then s.panic .freeDesc2
    else { s with
      desc := update s.desc ⟨i, h⟩ ⟨.null, 0, false, false, 0⟩
      free := update s.free ⟨i, h⟩ true }
  else s.panic .freeDesc1

/-- `free_chain`, at most `n` times round the loop. -/
def freeChain : ℕ → ℕ → St T B → St T B
  | 0, _, s => s.panic .endless
  | n + 1, i, s =>
    if h : i < num then
      let d := s.desc ⟨i, h⟩
      let s := s.freeDesc i
      if s.panicked.isSome then s
      else if d.hasNext then freeChain n d.next s
      else s
    else s.panic .freeDesc1

def alloc3Desc (s : St T B) : Option Chain × St T B :=
  match s.allocDesc with
  | (none, s) => (none, s)
  | (some i, s) =>
    match s.allocDesc with
    | (none, s) => (none, s.freeDesc i)
    | (some j, s) =>
      match s.allocDesc with
      | (none, s) => (none, (s.freeDesc i).freeDesc j)
      | (some k, s) => (some ⟨i, j, k⟩, s)

/-! ## `virtio_disk_rw` -/

variable [DecidableEq B]

/-- The three descriptors are formatted, the buffer is recorded, and the head is submitted. -/
def submit (blockno : B → ℕ) (b : B) (write : Bool) (c : Chain) (s : St T B) : St T B :=
  let desc := update s.desc c.head ⟨.op c.head, 16, true, false, c.mid⟩
  let desc := update desc c.mid ⟨.data b, 1024, true, !write, c.tail⟩
  let desc := update desc c.tail ⟨.status c.head, 1, false, true, 0⟩
  { s with
    ops := update s.ops c.head ⟨write, blockno b * 2⟩
    desc := desc
    info := update s.info c.head ⟨some b, 0xff⟩
    disk := update s.disk b true
    avail := s.avail.push c.head }

variable [DecidableEq T]

def jump (t : T) (q : Pc B) (s : St T B) : St T B := { s with pc := update s.pc t q }

end St

/-- What a step moves: the head that is submitted, that the device takes and returns, and that
`virtio_disk_intr` handles. -/
structure Moved where
  submitted : List Ix := []
  consumed : List Ix := []
  completed : List Ix := []
  handled : List Ix := []

namespace St

variable [DecidableEq T] [DecidableEq B]

/-- The segment of `virtio_disk_rw` that allocates the descriptors and submits the request. -/
def attempt (blockno : B → ℕ) (t : T) (b : B) (write : Bool) (s : St T B) : St T B × Moved :=
  match s.alloc3Desc with
  | (none, s) => (s.jump t (.alloc b write), {})
  | (some c, s) => ((s.submit blockno b write c).jump t (.wait b c), { submitted := [c.head] })

/-- The segment of `virtio_disk_rw` after `sleep(b, …)`. -/
def resume (t : T) (b : B) (c : Chain) (s : St T B) : St T B :=
  if s.disk b then s
  else
    let s := { s with info := update s.info c.head { s.info c.head with b := none } }
    (s.freeChain num c.head).jump t .out

/-! ## `virtio_disk_intr` -/

/-- The loop of `virtio_disk_intr`, once round. -/
def intr (s : St T B) : Option (St T B × Moved) :=
  if s.used.nread ≠ s.used.nwrite then
    let id := s.used.head
    if (s.info id).status ≠ 0 then some (s.panic .intrStatus, {})
    else
      match (s.info id).b with
      | none => some (s.panic .noBuf, {})
      | some b =>
        some ({ s with disk := update s.disk b false, used := s.used.pop }, { handled := [id] })
  else none

/-! ## The device -/

/-- The device takes the next head. -/
def consume (s : St T B) : Option (St T B × Moved) :=
  if s.avail.nread ≠ s.avail.nwrite then
    some ({ s with avail := s.avail.pop, taken := s.avail.head :: s.taken },
      { consumed := [s.avail.head] })
  else none

/-- Where the device writes the status of the request with this head. -/
def statusAddr (s : St T B) (head : Ix) : Addr B :=
  let d := s.desc (Fin.ofNat num (s.desc head).next)
  (s.desc (Fin.ofNat num d.next)).addr

/-- The device writes status 0 and returns the head. -/
def complete (s : St T B) (head : Ix) : Option (St T B × Moved) :=
  if head ∈ s.taken then
    let info := match s.statusAddr head with
      | .status i => update s.info i { s.info i with status := 0 }
      | _ => s.info
    some ({ s with info := info, used := s.used.push head, taken := s.taken.erase head },
      { completed := [head] })
  else none

end St

/-! ## Steps -/

inductive Ev (T B : Type) where
  | acquiresleep (t : T) (b : B)
  | releasesleep (t : T) (b : B)
  /-- A call of `virtio_disk_rw`, up to its first `sleep`. -/
  | rw (t : T) (b : B) (write : Bool)
  /-- The segment after a `sleep`. -/
  | resume (t : T)
  | intr
  | consume
  | complete (head : Ix)

variable [DecidableEq T] [DecidableEq B]

/-- `virtio_disk_rw` is called by the holder of the lock of the buffer, as `bread` and `bwrite`
    are. -/
def St.go (blockno : B → ℕ) (s : St T B) : Ev T B → Option (St T B × Moved)
  | .acquiresleep t b =>
    if s.lock b = none then some ({ s with lock := update s.lock b (some t) }, {}) else none
  | .releasesleep t b =>
    match s.pc t with
    | .out => if s.lock b = some t then some ({ s with lock := update s.lock b none }, {}) else none
    | _ => none
  | .rw t b write =>
    match s.pc t with
    | .out => if s.lock b = some t then some (s.attempt blockno t b write) else none
    | _ => none
  | .resume t =>
    match s.pc t with
    | .out => none
    | .alloc b write => some (s.attempt blockno t b write)
    | .wait b c => some (s.resume t b c, {})
  | .intr => s.intr
  | .consume => s.consume
  | .complete head => s.complete head

def St.act (blockno : B → ℕ) (s : St T B) (e : Ev T B) : Option (St T B × Moved) :=
  match s.panicked with
  | some _ => none
  | none => s.go blockno e

def St.Step (blockno : B → ℕ) (s : St T B) (l : Ev T B × Moved) (s' : St T B) : Prop :=
  s.act blockno l.1 = some (s', l.2)

/-- After `virtio_disk_init`, which sets the counters to 0; they may have any value here. -/
def init (T B : Type) (k k' : BitVec 16) : St T B where
  desc := fun _ => ⟨.null, 0, false, false, 0⟩
  free := fun _ => true
  avail := ⟨fun _ => 0, k, k⟩
  used := ⟨fun _ => 0, k', k'⟩
  info := fun _ => ⟨none, 0⟩
  ops := fun _ => ⟨false, 0⟩
  disk := fun _ => false
  lock := fun _ => none
  taken := []
  pc := fun _ => .out
  panicked := none

/-! ## Histories -/

def submitted (tr : List (Ev T B × Moved)) : List Ix := tr.flatMap fun l => l.2.submitted

def consumed (tr : List (Ev T B × Moved)) : List Ix := tr.flatMap fun l => l.2.consumed

def completed (tr : List (Ev T B × Moved)) : List Ix := tr.flatMap fun l => l.2.completed

def handled (tr : List (Ev T B × Moved)) : List Ix := tr.flatMap fun l => l.2.handled

end Xv6.Virtio
