/-
  The redo log of `kernel/log.c` and the file-system operations that use it.

  A disk block is its 32-bit words. The header block (`struct logheader`) has `n` in word 0
  and `block[i]` in word `i + 1`. `log.lh` is the list of its first `n` block numbers; the
  array's entries past `n` are never read.

  `bread` returns the buffer: the cached contents where the block has been changed since the
  last restart, the disk contents otherwise. `bwrite` is one atomic disk write, and `DiskOp`
  names the four places of `log.c` that make one, so a crash can fall between any two of them.

  A step of the system (`Ev`) is a critical section of `log.lock`, one disk write of the
  commit or of the recovery in progress, a crash, or a restart. The operations are threads
  named by numbers, any number of them.
-/
import Xv6.Param
import Xv6.Lib.Run

namespace Xv6.Log

open Function

/-- A disk block (or buffer), by its 32-bit words. -/
abbrev Block := Nat → Nat

/-- The panics of `log_write` and `end_op`. -/
inductive Panic where
  | tooBigATransaction
  | logWriteOutsideOfTrans
  | logCommitting
  deriving DecidableEq, Repr

/-- The places of `log.c` that write one disk block. `clearHead` is `log.lh.n = 0` followed by
    `write_head()`. -/
inductive DiskOp where
  | writeLog (tail : Nat)
  | writeHead
  | install (tail : Nat)
  | clearHead
  deriving DecidableEq, Repr

/-- Where the machine is: without power, in `recover_from_log`, or running. -/
inductive Mode where
  | off
  | recovering
  | up
  deriving DecidableEq, Repr

structure St where
  disk : Nat → Block
  /-- Buffers that were changed since the restart. -/
  cache : Nat → Option Block
  /-- `log.lh`, its first `n` entries. -/
  lh : List Nat
  outstanding : Int
  committing : Bool
  /-- The distinct block numbers an operation has logged; `none` outside begin/end. -/
  ops : Nat → Option (List Nat)
  /-- Disk writes that the commit or the recovery in progress has still to make. -/
  todo : List DiskOp
  mode : Mode
  panicked : Option Panic

/-- A machine without power, with disk `d`. -/
def powerOff (d : Nat → Block) : St where
  disk := d
  cache := fun _ => none
  lh := []
  outstanding := 0
  committing := false
  ops := fun _ => none
  todo := []
  mode := .off
  panicked := none

/-! ## Buffers -/

def bread (s : St) (b : Nat) : Block := (s.cache b).getD (s.disk b)

/-- Overwrites the data of a locked buffer. -/
def setBuf (s : St) (b : Nat) (d : Block) : St :=
  { s with cache := update s.cache b (some d) }

def bwrite (s : St) (b : Nat) : St :=
  { s with disk := update s.disk b (bread s b) }

/-! ## The log on disk -/

/-- The header block after `hb->n = log.lh.n` and the copy of the `n` block numbers. -/
def headerBlock (lh : List Nat) (hb : Block) : Block := fun w =>
  if w = 0 then lh.length else lh.getD (w - 1) (hb w)

/-- `read_head`: the block numbers in the header block. -/
def readHead (hb : Block) : List Nat := (List.range (hb 0)).map fun i => hb (i + 1)

variable (start : Nat)

/-- One round of `write_log`: copy a modified block from the cache to the log. -/
def writeLog (s : St) (tail : Nat) : St :=
  bwrite (setBuf s (start + tail + 1) (bread s (s.lh.getD tail 0))) (start + tail + 1)

/-- `write_head`: write the in-memory log header to disk. -/
def writeHead (s : St) : St :=
  bwrite (setBuf s start (headerBlock s.lh (bread s start))) start

/-- One round of `install_trans`: copy a log block to its home location. -/
def installTrans (s : St) (tail : Nat) : St :=
  bwrite (setBuf s (s.lh.getD tail 0) (bread s (start + tail + 1))) (s.lh.getD tail 0)

def DiskOp.exec (s : St) : DiskOp → St
  | .writeLog tail => Log.writeLog start s tail
  | .writeHead => Log.writeHead start s
  | .install tail => installTrans start s tail
  | .clearHead => Log.writeHead start { s with lh := [] }

/-- The disk writes of `install_trans` from round `t` on, and of the `write_head` after it. -/
def installFrom (n t : Nat) : List DiskOp :=
  (List.range' t (n - t)).map .install ++ [.clearHead]

/-- The disk writes of `commit` with `n` logged blocks, from round `t` of `write_log` on. -/
def commitFrom (n t : Nat) : List DiskOp :=
  (List.range' t (n - t)).map .writeLog ++ .writeHead :: installFrom n 0

/-- The disk writes of `commit`. -/
def commit (n : Nat) : List DiskOp := if 0 < n then commitFrom n 0 else []

/-- The disk writes of `recover_from_log` once `read_head` has found `n` blocks. -/
def recoverFromLog (n : Nat) : List DiskOp := installFrom n 0

/-! ## `begin_op`, `log_write`, `end_op` -/

/-- `begin_op`'s test; `none` is a call that goes back to sleep. -/
def beginOp (s : St) : Option St :=
  if s.committing then none
  else if (s.lh.length : Int) + (s.outstanding + 1) * maxOpBlocks > logBlocks then none
  else some { s with outstanding := s.outstanding + 1 }

/-- The scan of `log_write`: stop at an equal entry, append at the end. -/
def absorb (b : Nat) : List Nat → List Nat
  | [] => [b]
  | x :: xs => if x = b then b :: xs else x :: absorb b xs

/-- The caller sets the buffer of block `b` to `d` and calls `log_write`. -/
def logWrite (s : St) (b : Nat) (d : Block) : St :=
  let s := setBuf s b d
  if s.lh.length ≥ logBlocks then { s with panicked := some .tooBigATransaction }
  else if s.outstanding < 1 then { s with panicked := some .logWriteOutsideOfTrans }
  else { s with lh := absorb b s.lh }

/-- `end_op` up to its first `release`, with the disk writes of `commit` queued. -/
def endOp (s : St) : St :=
  let s := { s with outstanding := s.outstanding - 1 }
  if s.committing then { s with panicked := some .logCommitting }
  else if s.outstanding = 0 then { s with committing := true, todo := commit s.lh.length }
  else s

/-! ## The system -/

inductive Ev where
  | beginOp (t : Nat)
  | logWrite (t b : Nat) (d : Block)
  | endOp (t : Nat)
  /-- The next disk write of the commit or the recovery. -/
  | disk
  /-- `end_op` after `commit()` has returned. -/
  | commitDone
  | crash
  | boot
  /-- `initlog` returns. -/
  | initlogDone

/-- One step of the machine. A panic stops everything but the power switch. -/
def step (s : St) : Ev → Option St
  | .crash => some (powerOff s.disk)
  | .boot =>
    if s.mode = .off then
      let lh := readHead (s.disk start)
      some { powerOff s.disk with lh := lh, todo := recoverFromLog lh.length, mode := .recovering }
    else none
  | .initlogDone =>
    if s.mode = .recovering ∧ s.todo = [] then some { s with mode := .up } else none
  | .disk =>
    if s.mode = .off ∨ s.panicked ≠ none then none else
      match s.todo with
      | [] => none
      | op :: rest => some { op.exec start s with todo := rest }
  | .beginOp t =>
    if s.mode = .up ∧ s.panicked = none ∧ s.ops t = none then
      (beginOp s).map fun s' => { s' with ops := update s'.ops t (some []) }
    else none
  | .logWrite t b d =>
    match s.ops t with
    | some seen =>
      if s.panicked = none then
        let s' := logWrite s b d
        some { s' with ops := update s'.ops t (some (if b ∈ seen then seen else b :: seen)) }
      else none
    | none => none
  | .endOp t =>
    if s.panicked = none ∧ s.ops t ≠ none then
      let s' := endOp s
      some { s' with ops := update s'.ops t none }
    else none
  | .commitDone =>
    if s.mode = .up ∧ s.panicked = none ∧ s.committing ∧ s.todo = [] then
      some { s with committing := false }
    else none

/-! ## Buffers: what the disk writes change -/

section
variable {start}

@[simp] theorem bread_setBuf_same (s : St) (b : Nat) (d : Block) : bread (setBuf s b d) b = d := by
  simp [bread, setBuf]

theorem bread_setBuf_ne (s : St) {a b : Nat} (d : Block) (h : a ≠ b) :
    bread (setBuf s b d) a = bread s a := by
  simp [bread, setBuf, update_of_ne h]

/-- A disk write leaves every buffer as it is. -/
@[simp] theorem bread_bwrite (s : St) (a b : Nat) : bread (bwrite s b) a = bread s a := by
  by_cases h : a = b
  · subst h
    cases hc : s.cache a <;> simp [bread, bwrite, hc]
  · simp [bread, bwrite, update_of_ne h]

theorem absorb_eq (b : Nat) (l : List Nat) : absorb b l = if b ∈ l then l else l ++ [b] := by
  induction l with
  | nil => rfl
  | cons x xs ih =>
    by_cases hx : x = b
    · simp [absorb, hx]
    · have hne : ¬ b = x := fun h => hx h.symm
      simp only [absorb, hx, if_false, ih, List.mem_cons, hne, false_or]
      split <;> simp

end

end Xv6.Log
