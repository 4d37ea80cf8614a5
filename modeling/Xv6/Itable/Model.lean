/-
  The inode table of `kernel/fs.c` under any interleaving of `ialloc`, `iupdate`, `iget`, `idup`,
  `ilock`, `iunlock` and `iput`.

  `itable.lock` guards who an entry is for and how many references there are, the sleep-lock of an
  entry guards the copy of the inode. A thread stands at a position `Pc`; one step is one critical
  section of `itable.lock`, one change of a sleep-lock, or one access to an inode on disk or to the
  copy whose lock the thread holds. Any number of threads take turns.

  Between calls a thread (`Pc.free`) may start any of them. It calls `idup`, `ilock`, `iunlock` and
  `iput` for references that it has, keeps a reference while it holds the lock, changes the copy
  only under the lock and calls `iupdate` before it unlocks a copy that it changed. A reference may
  go from one thread to another, as a directory does to the child in `kfork`.

  `refs` and `dirty` are history: the references that a thread has, and the copies that wait for
  their `iupdate`.
-/
import Xv6.Lib.Run
import Xv6.Fs.Disk

namespace Xv6.Itable

open Function

open Fs (IType Dinode)

/-! ## States -/

inductive Panic where
  | noInodes
  | ilock
  | noType
  | iunlock
  deriving DecidableEq

variable {T : Type} {n : ℕ}

/-- A device and the number of an inode on it. -/
abbrev Key := ℕ × ℕ

/-- An entry of the table. -/
structure Inode (T : Type) where
  dev : ℕ
  inum : ℕ
  ref : ℕ
  /-- The thread that holds the sleep-lock. -/
  lock : Option T
  valid : Bool
  d : Dinode

def Inode.key (x : Inode T) : Key := (x.dev, x.inum)

/-- Where a thread is in a call for an entry. -/
inductive Role where
  -- `ilock`: before `acquiresleep`, and before the copy is filled
  | lockWait
  | lockFill
  -- `iput` of an inode that it frees: before `itrunc`, before `ip->type = 0`, before
  -- `ip->valid = 0`, before `releasesleep`, before `ip->ref--`
  | putTrunc
  | putType
  | putInvalid
  | putUnlock
  | putLast
  deriving DecidableEq

inductive Pc (n : ℕ) where
  /-- Between calls. -/
  | free
  -- `ialloc`: in the loop, and before `iget`
  | alloc (dev : ℕ) (type : IType) (inum : ℕ)
  | allocGot (k : Key)
  | call (r : Role) (e : Fin n)
  deriving DecidableEq

structure St (T : Type) (n : ℕ) where
  inode : Fin n → Inode T
  disk : Key → Dinode
  pc : T → Pc n
  /-- The references that a thread has. -/
  refs : T → List (Fin n)
  dirty : Fin n → Bool
  panicked : Option Panic

/-- After `iinit`, with disk `d`. -/
def boot (T : Type) (n : ℕ) (d : Key → Dinode) : St T n where
  inode := fun _ => ⟨0, 0, 0, none, false, .fresh .free⟩
  disk := d
  pc := fun _ => .free
  refs := fun _ => []
  dirty := fun _ => false
  panicked := none

/-! ## Operations -/

inductive Op (T : Type) (n : ℕ) where
  | skip
  /-- `memset(dip, 0, sizeof(*dip)); dip->type = type` -/
  | allocate (k : Key) (type : IType)
  /-- `ip->ref++`, and the caller has the reference. -/
  | share (e : Fin n)
  /-- `iget` takes an empty entry. -/
  | recycle (e : Fin n) (k : Key)
  | acquiresleep (e : Fin n)
  /-- The part of `ilock` that reads the inode from the disk. -/
  | fill (e : Fin n)
  | modify (e : Fin n) (d : Dinode)
  /-- The copy is set to `d` and written to the disk. -/
  | iupdate (e : Fin n) (d : Dinode)
  | releasesleep (e : Fin n)
  /-- A reference goes to another thread. -/
  | give (e : Fin n) (u : T)
  /-- `ip->ref--`, of a reference that the caller had. -/
  | drop (e : Fin n)
  /-- `acquiresleep` in `iput`. -/
  | claim (e : Fin n)
  | invalidate (e : Fin n)
  /-- `ip->ref--` at the end of an `iput` that freed the inode. -/
  | unref (e : Fin n)
  | panic (p : Panic)

def St.setInode (s : St T n) (e : Fin n) (x : Inode T) : St T n :=
  { s with inode := update s.inode e x }

section

variable [DecidableEq T]

/-- An `acquiresleep` waits until the lock is free. -/
def Op.Enabled (s : St T n) : Op T n → Prop
  | .acquiresleep e | .claim e => (s.inode e).lock = none
  | _ => True

instance (s : St T n) (o : Op T n) : Decidable (o.Enabled s) := by
  cases o <;> unfold Op.Enabled <;> infer_instance

def St.setRefs (s : St T n) (t : T) (l : List (Fin n)) : St T n :=
  { s with refs := update s.refs t l }

/-- The operation, by thread `t`. -/
def Op.apply (s : St T n) (t : T) : Op T n → St T n
  | .skip => s
  | .allocate k type => { s with disk := update s.disk k (.fresh type) }
  | .share e =>
    (s.setInode e { s.inode e with ref := (s.inode e).ref + 1 }).setRefs t (e :: s.refs t)
  | .recycle e k =>
    (s.setInode e { s.inode e with dev := k.1, inum := k.2, ref := 1, valid := false }).setRefs t
      (e :: s.refs t)
  | .acquiresleep e => s.setInode e { s.inode e with lock := some t }
  | .fill e =>
    if (s.inode e).valid then s
    else
      let d := s.disk (s.inode e).key
      { s.setInode e { s.inode e with d := d, valid := true } with
        panicked := if d.type = .free then some .noType else none }
  | .modify e d =>
    { s.setInode e { s.inode e with d := d } with dirty := update s.dirty e true }
  | .iupdate e d =>
    { s.setInode e { s.inode e with d := d } with
      disk := update s.disk (s.inode e).key d, dirty := update s.dirty e false }
  | .releasesleep e => s.setInode e { s.inode e with lock := none }
  | .give e u =>
    let s' := s.setRefs t ((s.refs t).erase e)
    s'.setRefs u (e :: s'.refs u)
  | .drop e =>
    (s.setInode e { s.inode e with ref := (s.inode e).ref - 1 }).setRefs t ((s.refs t).erase e)
  | .claim e => (s.setInode e { s.inode e with lock := some t }).setRefs t ((s.refs t).erase e)
  | .invalidate e => s.setInode e { s.inode e with valid := false }
  | .unref e => s.setInode e { s.inode e with ref := (s.inode e).ref - 1 }
  | .panic p => { s with panicked := some p }

/-! ## The code -/

/-- The entry of an inode, if it is in the table. -/
def St.lookup (s : St T n) (k : Key) : Option (Fin n) :=
  (List.finRange n).find? fun e => decide (0 < (s.inode e).ref ∧ (s.inode e).key = k)

def St.empty (s : St T n) : Option (Fin n) :=
  (List.finRange n).find? fun e => decide ((s.inode e).ref = 0)

/-- `iget`, called at `pc`. -/
def iget (s : St T n) (k : Key) (pc : Pc n) : Op T n × Pc n :=
  match s.lookup k with
  | some e => (.share e, .free)
  | none =>
    match s.empty with
    | some e => (.recycle e k, .free)
    | none => (.panic .noInodes, pc)

/-- `ilock`, up to `acquiresleep`. -/
def ilock (s : St T n) (e : Fin n) : Op T n × Pc n :=
  if (s.inode e).ref < 1 then (.panic .ilock, .free) else (.skip, .call .lockWait e)

def iunlock (s : St T n) (t : T) (e : Fin n) : Op T n × Pc n :=
  if (s.inode e).lock ≠ some t ∨ (s.inode e).ref < 1 then (.panic .iunlock, .free)
  else (.releasesleep e, .free)

/-- The first critical section of `iput`. -/
def iput (s : St T n) (e : Fin n) : Op T n × Pc n :=
  if (s.inode e).ref = 1 ∧ (s.inode e).valid = true ∧ (s.inode e).d.nlink = 0 then
    (.claim e, .call .putTrunc e)
  else (.drop e, .free)

/-- The loop of `ialloc` at inode `inum`. -/
def ialloc (ninodes : ℕ) (s : St T n) (dev : ℕ) (type : IType) (inum : ℕ) : Op T n × Pc n :=
  if inum < ninodes then
    if (s.disk (dev, inum)).type = .free then (.allocate (dev, inum) type, .allocGot (dev, inum))
    else (.skip, .alloc dev type (inum + 1))
  else (.skip, .free)

/-- The thread has a reference that it does not need for the lock. -/
def St.Spare (s : St T n) (t : T) (e : Fin n) : Prop :=
  (if (s.inode e).lock = some t then 1 else 0) < (s.refs t).count e

instance (s : St T n) (t : T) (e : Fin n) : Decidable (s.Spare t e) :=
  inferInstanceAs (Decidable (_ < _))

/-- What a thread does next, where the code leaves it open. -/
inductive Choice (T : Type) (n : ℕ) where
  | go
  | ialloc (dev : ℕ) (type : IType)
  | iget (k : Key)
  | idup (e : Fin n)
  | ilock (e : Fin n)
  | modify (e : Fin n) (d : Dinode)
  | iupdate (e : Fin n)
  | iunlock (e : Fin n)
  | iput (e : Fin n)
  | give (e : Fin n) (u : T)

variable (ninodes : ℕ)

/-- The next step of thread `t`, where it stands at the position given first. -/
def edge (s : St T n) (t : T) : Pc n → Choice T n → Option (Op T n × Pc n)
  | .free, .ialloc dev type => if type = .free then none else some (.skip, .alloc dev type 1)
  | .free, .iget k => some (iget s k .free)
  | .free, .idup e => if e ∈ s.refs t then some (.share e, .free) else none
  | .free, .ilock e => if e ∈ s.refs t then some (ilock s e) else none
  | .free, .modify e d =>
    if (s.inode e).lock = some t ∧ d.type = (s.inode e).d.type then some (.modify e d, .free) else
      none
  | .free, .iupdate e =>
    if (s.inode e).lock = some t then some (.iupdate e (s.inode e).d, .free) else none
  | .free, .iunlock e => if e ∈ s.refs t ∧ s.dirty e = false then some (iunlock s t e) else none
  | .free, .iput e => if s.Spare t e then some (iput s e) else none
  | .free, .give e u => if s.Spare t e then some (.give e u, .free) else none
  | .alloc dev type inum, .go => some (ialloc ninodes s dev type inum)
  | .allocGot k, .go => some (iget s k (.allocGot k))
  | .call .lockWait e, .go => some (.acquiresleep e, .call .lockFill e)
  | .call .lockFill e, .go => some (.fill e, .free)
  -- `itrunc` clears the addresses and the size, and calls `iupdate`
  | .call .putTrunc e, .go =>
    some (.iupdate e { (s.inode e).d with size := 0, addrs := fun _ => 0 }, .call .putType e)
  | .call .putType e, .go =>
    some (.iupdate e { (s.inode e).d with type := .free }, .call .putInvalid e)
  | .call .putInvalid e, .go => some (.invalidate e, .call .putUnlock e)
  | .call .putUnlock e, .go => some (.releasesleep e, .call .putLast e)
  | .call .putLast e, .go => some (.unref e, .free)
  | _, _ => none

/-- The operation, and the thread at its new position. -/
def Op.next (s : St T n) (t : T) (o : Op T n) (pc : Pc n) : St T n :=
  { o.apply s t with pc := update s.pc t pc }

/-- One step of a thread. A panic stops everything. -/
def step (s : St T n) (i : T × Choice T n) : Option (St T n) :=
  if s.panicked ≠ none then none else
    match edge ninodes s i.1 (s.pc i.1) i.2 with
    | some (o, pc) => if o.Enabled s then some (o.next s i.1 pc) else none
    | none => none

end

end Xv6.Itable
