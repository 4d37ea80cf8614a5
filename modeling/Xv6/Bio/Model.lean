/-
  The buffer cache of `kernel/bio.c` under the log of `kernel/log.c`.

  The buffers lie in an array and in a circular list through `prev` and `next`, whose sentinel is
  `bcache.head` (`Lib.Dll`). A thread stands at a position `Pc`. One step is one critical section of
  `bcache.lock` or `log.lock`, one change of a sleep-lock, or one access to a buffer whose
  sleep-lock the thread holds; `virtio_disk_rw` moves a whole block. `log_write` takes `bcache.lock`
  (in `bpin`) while it holds `log.lock`, so it is two steps. Any number of threads take turns.

  Between calls a thread (`Pc.free`) may start any of them: `bread` of any block, a change of a
  buffer that it has, `log_write`, `brelse`, `begin_op`, `end_op`. The blocks of the log belong to
  `log.c`: other code does not change them. A buffer that was changed goes to `log_write` before it
  is released. The thread whose `end_op` is the last one goes through `commit`.

  `changed`, `pins` and the block lists in `ops` are history: `changed` marks buffers on their way
  to `log_write`, `pins` the blocks that `bpin` holds in the cache, `ops` what an operation has
  logged.
-/
import Xv6.Lib.Dll
import Xv6.Log.Model

namespace Xv6.Bio

open Lib Function
open Log (Block absorb headerBlock)

/-! ## States -/

inductive Panic where
  | noBuffers
  | bwrite
  | brelse
  | tooBigATransaction
  | logWriteOutsideOfTrans
  | logCommitting
  deriving DecidableEq

variable {T : Type} {n : ℕ}

/-- What a thread does with the buffer that `bread` returns. -/
inductive Cont (n : ℕ) where
  | user
  -- `write_log`: `to` and `from`
  | logTo (tail : ℕ)
  | logFrom (tail : ℕ) (dst : Fin n)
  -- `write_head`, before or after `install_trans`
  | head (last : Bool)
  -- `install_trans`: `lbuf` and `dbuf`
  | insLog (tail : ℕ)
  | insHome (tail : ℕ) (lbuf : Fin n)

inductive Pc (n : ℕ) where
  /-- Between calls. -/
  | free
  -- `bread`: before `acquiresleep`, and before the buffer is filled
  | get (b : Fin n) (c : Cont n)
  | got (b : Fin n) (c : Cont n)
  /-- `brelse`, after `releasesleep`. -/
  | out (b : Fin n) (k : Pc n)
  /-- `log_write`, before `bpin`. -/
  | logPin (b : Fin n)
  -- `write_log`
  | logStart (tail : ℕ)
  | logTo (tail : ℕ) (dst : Fin n)
  | logBoth (tail : ℕ) (dst src : Fin n)
  | logMoved (tail : ℕ) (dst src : Fin n)
  | logWritten (tail : ℕ) (dst src : Fin n)
  | logLast (tail : ℕ) (dst : Fin n)
  -- `write_head`
  | headStart (last : Bool)
  | headGot (last : Bool) (b : Fin n)
  | headSet (last : Bool) (b : Fin n)
  | headWritten (last : Bool) (b : Fin n)
  -- `install_trans`
  | insStart (tail : ℕ)
  | insLog (tail : ℕ) (lbuf : Fin n)
  | insBoth (tail : ℕ) (lbuf dbuf : Fin n)
  | insMoved (tail : ℕ) (lbuf dbuf : Fin n)
  | insWritten (tail : ℕ) (lbuf dbuf : Fin n)
  | insUnpinned (tail : ℕ) (lbuf dbuf : Fin n)
  | insLast (tail : ℕ) (dbuf : Fin n)
  /-- `end_op`, after `commit`. -/
  | done

/-- Where a thread goes on after `bread`. -/
def Cont.ret (b : Fin n) : Cont n → Pc n
  | .user => .free
  | .logTo tail => .logTo tail b
  | .logFrom tail dst => .logBoth tail dst b
  | .head last => .headGot last b
  | .insLog tail => .insLog tail b
  | .insHome tail lbuf => .insBoth tail lbuf b

/-- `struct buf` without its links. -/
structure Buf (T : Type) where
  valid : Bool
  dev : ℕ
  blockno : ℕ
  refcnt : ℕ
  /-- The thread that holds the sleep-lock. -/
  lock : Option T
  data : Block

structure St (T : Type) (n : ℕ) where
  buf : Fin n → Buf T
  list : Dll (Fin n)
  disk : ℕ → Block
  /-- The thread that holds `log.lock` in `log_write`. -/
  logLock : Option T
  /-- `log.lh`, its first `n` entries. -/
  lh : List ℕ
  outstanding : ℤ
  committing : Bool
  pc : T → Pc n
  /-- The buffers that a thread has from `bread`. -/
  held : T → List (Fin n)
  /-- The blocks an operation has logged; `none` outside of `begin_op` and `end_op`. -/
  ops : T → Option (List ℕ)
  changed : Fin n → Bool
  pins : List ℕ
  panicked : Option Panic

/-- The list that `binit` builds, one buffer after the other. -/
def binit (n : ℕ) : Dll (Fin n) := (List.finRange n).foldl Dll.pushFront .empty

/-- After `binit`, with disk `d`. -/
def boot (T : Type) (n : ℕ) (d : ℕ → Block) : St T n where
  buf := fun _ => ⟨false, 0, 0, 0, none, fun _ => 0⟩
  list := binit n
  disk := d
  logLock := none
  lh := []
  outstanding := 0
  committing := false
  pc := fun _ => .free
  held := fun _ => []
  ops := fun _ => none
  changed := fun _ => false
  pins := []
  panicked := none

/-- The header block and the blocks behind it. -/
def LogArea (start β : ℕ) : Prop := start ≤ β ∧ β ≤ start + logBlocks

instance (start β : ℕ) : Decidable (LogArea start β) := inferInstanceAs (Decidable (_ ∧ _))

/-! ## Operations -/

inductive Op (n : ℕ) where
  | skip
  /-- `bget` finds the block. -/
  | hit (b : Fin n)
  /-- `bget` recycles a buffer. -/
  | recycle (b : Fin n) (β : ℕ)
  | acquiresleep (b : Fin n)
  /-- `if(!b->valid) { virtio_disk_rw(b, 0); b->valid = 1; }` -/
  | fill (b : Fin n)
  /-- The same, and the buffer goes to the caller. -/
  | hold (b : Fin n)
  | modify (b : Fin n) (d : Block)
  /-- `memmove` to the data of a buffer, in `log.c`. -/
  | move (b : Fin n) (d : Block)
  | bwrite (b : Fin n)
  | releasesleep (b : Fin n)
  /-- `releasesleep` of a buffer that the caller has. -/
  | release (b : Fin n)
  /-- The rest of `brelse`. -/
  | drop (b : Fin n)
  /-- `log_write` of a block that is in the log. -/
  | absorb (b : Fin n)
  /-- `log_write` of another block, up to `bpin`. -/
  | logAcquire
  /-- `bpin`, and the rest of `log_write`. -/
  | pin (b : Fin n)
  | bunpin (b : Fin n)
  | beginOp
  | endOp (commit : Bool)
  /-- `log.lh.n = 0` -/
  | clear
  /-- `log.committing = 0` -/
  | commitDone
  | panic (p : Panic)

namespace St

variable (s : St T n)

def setBuf (b : Fin n) (x : Buf T) : St T n := { s with buf := update s.buf b x }

/-- A list with one more block, where it is new. -/
def note (seen : List ℕ) (β : ℕ) : List ℕ := if β ∈ seen then seen else β :: seen

end St

section

variable [DecidableEq T]

/-- `log_write` is through with a buffer. -/
def St.logged (s : St T n) (t : T) (b : Fin n) : St T n :=
  { s with
    lh := absorb (s.buf b).blockno s.lh
    changed := update s.changed b false
    ops := update s.ops t ((s.ops t).map fun seen => St.note seen (s.buf b).blockno) }

/-- `if(!b->valid) { virtio_disk_rw(b, 0); b->valid = 1; }` -/
def Buf.fill (disk : ℕ → Block) (x : Buf T) : Buf T :=
  if x.valid then x else { x with data := disk x.blockno, valid := true }

/-- An `acquire` waits until the lock is free. -/
def Op.Enabled (s : St T n) : Op n → Prop
  | .acquiresleep b => (s.buf b).lock = none
  | .absorb _ | .logAcquire | .beginOp | .endOp _ | .commitDone => s.logLock = none
  | .panic .tooBigATransaction | .panic .logWriteOutsideOfTrans | .panic .logCommitting =>
    s.logLock = none
  | _ => True

instance (s : St T n) (op : Op n) : Decidable (op.Enabled s) := by
  cases op with
  | panic p => cases p <;> unfold Op.Enabled <;> infer_instance
  | _ => unfold Op.Enabled; infer_instance

/-- The operation, by thread `t`. -/
def Op.apply (s : St T n) (t : T) : Op n → St T n
  | .skip => s
  | .hit b => s.setBuf b { s.buf b with refcnt := (s.buf b).refcnt + 1 }
  | .recycle b β =>
    s.setBuf b { s.buf b with dev := rootDev, blockno := β, valid := false, refcnt := 1 }
  | .acquiresleep b => s.setBuf b { s.buf b with lock := some t }
  | .fill b => s.setBuf b ((s.buf b).fill s.disk)
  | .hold b =>
    { s.setBuf b ((s.buf b).fill s.disk) with held := update s.held t (b :: s.held t) }
  | .modify b d =>
    { s.setBuf b { s.buf b with data := d } with changed := update s.changed b true }
  | .move b d => s.setBuf b { s.buf b with data := d }
  | .bwrite b => { s with disk := update s.disk (s.buf b).blockno (s.buf b).data }
  | .releasesleep b => s.setBuf b { s.buf b with lock := none }
  | .release b =>
    { s.setBuf b { s.buf b with lock := none } with
      held := update s.held t ((s.held t).erase b) }
  | .drop b =>
    let s' := s.setBuf b { s.buf b with refcnt := (s.buf b).refcnt - 1 }
    if (s.buf b).refcnt - 1 = 0 then { s' with list := (s'.list.unlink b).pushFront b } else s'
  | .absorb b => s.logged t b
  | .logAcquire => { s with logLock := some t }
  | .pin b =>
    { (s.setBuf b { s.buf b with refcnt := (s.buf b).refcnt + 1 }).logged t b with
      pins := s.pins ++ [(s.buf b).blockno], logLock := none }
  | .bunpin b =>
    { s.setBuf b { s.buf b with refcnt := (s.buf b).refcnt - 1 } with
      pins := s.pins.erase (s.buf b).blockno }
  | .beginOp =>
    { s with outstanding := s.outstanding + 1, ops := update s.ops t (some []) }
  | .endOp commit =>
    { s with
      outstanding := s.outstanding - 1
      ops := update s.ops t none
      committing := if commit then true else s.committing }
  | .clear => { s with lh := [] }
  | .commitDone => { s with committing := false }
  | .panic p => { s with panicked := some p }

/-! ## The code -/

/-- The first loop of `bget`. -/
def St.cached (s : St T n) (β : ℕ) : Option (Fin n) :=
  Dll.scan s.list.next (fun b => (s.buf b).dev = rootDev ∧ (s.buf b).blockno = β) (n + 1)
    (s.list.next none)

/-- The second loop of `bget`. -/
def St.recyclable (s : St T n) : Option (Fin n) :=
  Dll.scan s.list.prev (fun b => (s.buf b).refcnt = 0) (n + 1) (s.list.prev none)

/-- `bread(β)` up to the `release` in `bget`; `pc` is where the call is made. -/
def bget (s : St T n) (β : ℕ) (c : Cont n) (pc : Pc n) : Op n × Pc n :=
  match s.cached β with
  | some b => (.hit b, .get b c)
  | none =>
    match s.recyclable with
    | some b => (.recycle b β, .get b c)
    | none => (.panic .noBuffers, pc)

def bwrite (s : St T n) (t : T) (b : Fin n) (pc k : Pc n) : Op n × Pc n :=
  if (s.buf b).lock = some t then (.bwrite b, k) else (.panic .bwrite, pc)

/-- `brelse(b)`, up to the `acquire`. -/
def brelse (s : St T n) (t : T) (b : Fin n) (pc k : Pc n) : Op n × Pc n :=
  if (s.buf b).lock = some t then (.releasesleep b, .out b k) else (.panic .brelse, pc)

def logWrite (s : St T n) (b : Fin n) : Op n × Pc n :=
  if s.lh.length ≥ logBlocks then (.panic .tooBigATransaction, .free)
  else if s.outstanding < 1 then (.panic .logWriteOutsideOfTrans, .free)
  else if (s.buf b).blockno ∈ s.lh then (.absorb b, .free)
  else (.logAcquire, .logPin b)

/-- `begin_op`'s test; `none` is a call that goes to sleep. -/
def beginOp (s : St T n) : Option (Op n × Pc n) :=
  if s.committing then none
  else if (s.lh.length : ℤ) + (s.outstanding + 1) * maxOpBlocks > logBlocks then none
  else some (.beginOp, .free)

/-- Where `commit` starts. -/
def commit (s : St T n) : Pc n := if s.lh.length > 0 then .logStart 0 else .done

def endOp (s : St T n) : Op n × Pc n :=
  if s.committing then (.panic .logCommitting, .free)
  else if s.outstanding - 1 = 0 then (.endOp true, commit s)
  else (.endOp false, .free)

/-- What a thread does next, where the code leaves it open. -/
inductive Choice (n : ℕ) where
  | go
  | bread (β : ℕ)
  | modify (b : Fin n) (d : Block)
  | logWrite (b : Fin n)
  | brelse (b : Fin n)
  | beginOp
  | endOp

variable (start : ℕ)

/-- The next step of thread `t`, where it stands at the position given first. -/
def edge (s : St T n) (t : T) : Pc n → Choice n → Option (Op n × Pc n)
  | .free, .bread β => some (bget s β .user .free)
  | .free, .modify b d =>
    if (s.held t).contains b ∧ ¬LogArea start (s.buf b).blockno then some (.modify b d, .free) else
      none
  | .free, .logWrite b =>
    if (s.held t).contains b ∧ ¬LogArea start (s.buf b).blockno then some (logWrite s b) else none
  | .free, .brelse b =>
    if (s.held t).contains b ∧ s.changed b = false then
      if (s.buf b).lock = some t then some (.release b, .out b .free) else
        some (.panic .brelse, .free)
    else none
  | .free, .beginOp => if s.ops t = none then beginOp s else none
  | .free, .endOp => if s.ops t = none then none else some (endOp s)
  -- `bread` and `brelse`
  | .get b c, .go => some (.acquiresleep b, .got b c)
  | .got b .user, .go => some (.hold b, .free)
  | .got b c, .go => some (.fill b, c.ret b)
  | .out b k, .go => some (.drop b, k)
  | .logPin b, .go => some (.pin b, .free)
  -- `write_log`
  | .logStart tail, .go =>
    if tail < s.lh.length then some (bget s (start + tail + 1) (.logTo tail) (.logStart tail))
    else some (.skip, .headStart false)
  | .logTo tail dst, .go => some (bget s (s.lh.getD tail 0) (.logFrom tail dst) (.logTo tail dst))
  | .logBoth tail dst src, .go => some (.move dst (s.buf src).data, .logMoved tail dst src)
  | .logMoved tail dst src, .go =>
    some (bwrite s t dst (.logMoved tail dst src) (.logWritten tail dst src))
  | .logWritten tail dst src, .go =>
    some (brelse s t src (.logWritten tail dst src) (.logLast tail dst))
  | .logLast tail dst, .go => some (brelse s t dst (.logLast tail dst) (.logStart (tail + 1)))
  -- `write_head`
  | .headStart last, .go => some (bget s start (.head last) (.headStart last))
  | .headGot last b, .go => some (.move b (headerBlock s.lh (s.buf b).data), .headSet last b)
  | .headSet last b, .go => some (bwrite s t b (.headSet last b) (.headWritten last b))
  | .headWritten last b, .go =>
    some (brelse s t b (.headWritten last b) (if last then .done else .insStart 0))
  -- `install_trans(0)`
  | .insStart tail, .go =>
    if tail < s.lh.length then some (bget s (start + tail + 1) (.insLog tail) (.insStart tail))
    else some (.clear, .headStart true)
  | .insLog tail lbuf, .go =>
    some (bget s (s.lh.getD tail 0) (.insHome tail lbuf) (.insLog tail lbuf))
  | .insBoth tail lbuf dbuf, .go => some (.move dbuf (s.buf lbuf).data, .insMoved tail lbuf dbuf)
  | .insMoved tail lbuf dbuf, .go =>
    some (bwrite s t dbuf (.insMoved tail lbuf dbuf) (.insWritten tail lbuf dbuf))
  | .insWritten tail lbuf dbuf, .go => some (.bunpin dbuf, .insUnpinned tail lbuf dbuf)
  | .insUnpinned tail lbuf dbuf, .go =>
    some (brelse s t lbuf (.insUnpinned tail lbuf dbuf) (.insLast tail dbuf))
  | .insLast tail dbuf, .go => some (brelse s t dbuf (.insLast tail dbuf) (.insStart (tail + 1)))
  | .done, .go => some (.commitDone, .free)
  | _, _ => none

/-- One step of a thread. A panic stops everything. -/
def step (s : St T n) (e : T × Choice n) : Option (St T n) :=
  if s.panicked ≠ none then none else
    match edge start s e.1 (s.pc e.1) e.2 with
    | some (op, pc) =>
      if op.Enabled s then
        some { op.apply s e.1 with pc := update (op.apply s e.1).pc e.1 pc }
      else none
    | none => none

/-! ## What is seen of a block -/

/-- `bread` returns a block with its contents, and `log_write` gives a block new contents. -/
inductive Obs where
  | read (β : ℕ) (d : Block)
  | write (β : ℕ) (d : Block)

/-- What an operation shows of the blocks outside the log. -/
def Op.obs (s : St T n) : Op n → List Obs
  | .fill b | .hold b =>
    let x := (s.buf b).fill s.disk
    if LogArea start x.blockno then [] else [.read x.blockno x.data]
  | .absorb b | .pin b => [.write (s.buf b).blockno (s.buf b).data]
  | _ => []

def observe (s : St T n) (e : T × Choice n) : List Obs :=
  match edge start s e.1 (s.pc e.1) e.2 with
  | some (op, _) => op.obs start s
  | none => []

end

/-- A plain array of blocks. -/
def Plain (a : ℕ → Block) : Obs → (ℕ → Block) → Prop
  | .read β d, a' => d = a β ∧ a' = a
  | .write β d, a' => a' = update a β d

end Xv6.Bio
