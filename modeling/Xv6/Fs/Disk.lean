/-
  The lower half of `kernel/fs.c`: the block allocator, the inode table and the content of
  inodes, from `balloc` to `writei`.

  The disk is seen through the buffer cache: `block` has the blocks that hold data, `dinode` the
  inodes, `bit` the free map. A call that a transaction brackets is executed as a whole, so the
  log is left out here. There is one device. The inode table `inode` keeps the copies in memory;
  a copy and its inode on disk are written at different times.

  `copy` says what `either_copyin` and `either_copyout` do with the chunk at a position: a copy
  from user memory may fail after some bytes. Waiting for a sleep-lock that is held is the reason
  `blocked` to stop: a call that is executed as a whole would wait for ever.
-/
import Xv6.Lib.Act

namespace Xv6.Fs

open Lib Function

/-! ## The disk -/

def bSize : ℕ := 1024

def nDirect : ℕ := 12

/-- `BSIZE / sizeof(uint)` -/
def nIndirect : ℕ := 256

def maxFile : ℕ := nDirect + nIndirect

/-- Number of entries of the inode table. -/
abbrev nInode : ℕ := 50

abbrev Block := ℕ → UInt8

/-- The `uint` number `j` of a block. -/
def getUint (b : Block) (j : ℕ) : ℕ :=
  (b (4 * j)).toNat + 256 * (b (4 * j + 1)).toNat + 65536 * (b (4 * j + 2)).toNat +
    16777216 * (b (4 * j + 3)).toNat

def putUint (b : Block) (j v : ℕ) : Block := fun o =>
  if o / 4 = j then UInt8.ofNat (v / 256 ^ (o % 4)) else b o

/-- Bytes `f 0`, `f 1`, ... are copied to `b + i`, `m` of them. -/
def overlay (b : Block) (i m : ℕ) (f : ℕ → UInt8) : Block := fun o =>
  if i ≤ o ∧ o < i + m then f (o - i) else b o

/-- `T_DIR`, `T_FILE`, `T_DEVICE`; 0 is a free inode. -/
inductive IType where
  | free
  | dir
  | file
  | device
  deriving DecidableEq, Repr

structure Dinode where
  type : IType
  major : BitVec 16
  minor : BitVec 16
  nlink : BitVec 16
  size : ℕ
  /-- `addrs[0]` to `addrs[NDIRECT]` -/
  addrs : ℕ → ℕ

/-- An entry of the inode table. -/
@[ext]
structure Inode where
  inum : ℕ
  ref : ℕ
  valid : Bool
  /-- The sleep-lock is held. -/
  locked : Bool
  /-- The copy of the inode on disk. -/
  d : Dinode

/-- What is read of the super block, and the number of blocks in front of the data blocks. -/
structure Super where
  size : ℕ
  ninodes : ℕ
  nmeta : ℕ

/-- Why a call stops: the panics of `fs.c`, `file.c` and `sysfile.c`, and waiting for a lock. -/
inductive Stop where
  | freeingFreeBlock
  | noInodes
  | ilock
  | noType
  | iunlock
  | bmapRange
  | notDir
  | dirlookupRead
  | dirlinkRead
  | isdiremptyReadi
  | unlinkNlink
  | unlinkWritei
  | fileclose
  | filedup
  | blocked
  deriving DecidableEq, Repr

structure Store where
  bit : ℕ → Bool
  block : ℕ → Block
  dinode : ℕ → Dinode
  inode : Fin nInode → Inode

abbrev FsM := Act Store Stop

/-- A pointer to an entry of the inode table. -/
abbrev Ptr := Fin nInode

instance neZero_nInode : NeZero nInode := ⟨by decide⟩

namespace Store

variable (s : Store) (ip : Ptr)

def setInode (f : Inode → Inode) : Store :=
  { s with inode := update s.inode ip (f (s.inode ip)) }

def setD (f : Dinode → Dinode) : Store := s.setInode ip fun n => { n with d := f n.d }

def setAddr (k a : ℕ) : Store :=
  s.setD ip fun d => { d with addrs := update d.addrs k a }

def setBlock (b : ℕ) (f : Block → Block) : Store :=
  { s with block := update s.block b (f (s.block b)) }

end Store

/-! ## Blocks -/

/-- The first block whose bit is clear, zeroed; 0 if there is none. -/
def balloc (sb : Super) : FsM ℕ := do
  let s ← get
  match (List.range sb.size).find? fun b => !s.bit b with
  | some b => do
    set { s with
      bit := update s.bit b true, block := update s.block b fun _ => 0 }
    return b
  | none => return 0

def bfree (b : ℕ) : FsM Unit := do
  let s ← get
  if s.bit b then set { s with bit := update s.bit b false }
  else Act.stop .freeingFreeBlock

/-! ## Inodes -/

/-- `iget`: the entry of inode `inum`, or an empty one for it. -/
def iget (inum : ℕ) : FsM Ptr := do
  let s ← get
  match (List.finRange nInode).find? fun e => 0 < (s.inode e).ref && (s.inode e).inum == inum with
  | some ip => do
    set (s.setInode ip fun n => { n with ref := n.ref + 1 })
    return ip
  | none =>
    match (List.finRange nInode).find? fun e => (s.inode e).ref == 0 with
    | some ip => do
      set (s.setInode ip fun n => { n with inum := inum, ref := 1, valid := false })
      return ip
    | none => Act.stop .noInodes

def idup (ip : Ptr) : FsM Ptr := do
  modify fun s => s.setInode ip fun n => { n with ref := n.ref + 1 }
  return ip

/-- `memset(dip, 0, sizeof(*dip)); dip->type = type` -/
def Dinode.fresh (type : IType) : Dinode := ⟨type, 0, 0, 0, 0, fun _ => 0⟩

def ialloc (sb : Super) (type : IType) : FsM (Option Ptr) := do
  let s ← get
  match (List.range' 1 (sb.ninodes - 1)).find? fun i => (s.dinode i).type = .free with
  | some i => do
    set { s with dinode := update s.dinode i (.fresh type) }
    let ip ← iget i
    return some ip
  | none => return none

def iupdate (ip : Ptr) : FsM Unit :=
  modify fun s => { s with dinode := update s.dinode (s.inode ip).inum (s.inode ip).d }

def acquiresleep (ip : Ptr) : FsM Unit := do
  let s ← get
  if (s.inode ip).locked then Act.stop .blocked
  else set (s.setInode ip fun n => { n with locked := true })

def releasesleep (ip : Ptr) : FsM Unit :=
  modify fun s => s.setInode ip fun n => { n with locked := false }

/-- The part of `ilock` that reads the inode from the disk. -/
def iload (ip : Ptr) : FsM Unit := do
  let s ← get
  if (s.inode ip).valid then return ()
  else do
    let d := s.dinode (s.inode ip).inum
    set (s.setInode ip fun n => { n with d := d, valid := true })
    if d.type = .free then Act.stop .noType else return ()

def ilock (ip : Ptr) : FsM Unit := do
  let s ← get
  if (s.inode ip).ref < 1 then Act.stop .ilock
  else do
    acquiresleep ip
    iload ip

def iunlock (ip : Ptr) : FsM Unit := do
  let s ← get
  if !(s.inode ip).locked || (s.inode ip).ref < 1 then Act.stop .iunlock
  else releasesleep ip

/-! ## Content -/

/-- `addrs[k]`, allocated if necessary; 0 if out of disk space. -/
def bmapSlot (sb : Super) (ip : Ptr) (k : ℕ) : FsM ℕ := do
  let s ← get
  if (s.inode ip).d.addrs k ≠ 0 then return (s.inode ip).d.addrs k
  else do
    let addr ← balloc sb
    if addr = 0 then return 0
    else do
      modify fun s => s.setAddr ip k addr
      return addr

/-- Entry `bn` of the indirect block `ind`, allocated if necessary. -/
def bmapEntry (sb : Super) (ind bn : ℕ) : FsM ℕ := do
  let s ← get
  if getUint (s.block ind) bn ≠ 0 then return getUint (s.block ind) bn
  else do
    let addr ← balloc sb
    if addr = 0 then return 0
    else do
      modify fun s => s.setBlock ind fun a => putUint a bn addr
      return addr

def bmap (sb : Super) (ip : Ptr) (bn : ℕ) : FsM ℕ :=
  if bn < nDirect then bmapSlot sb ip bn
  else if bn - nDirect < nIndirect then do
    let addr ← bmapSlot sb ip nDirect
    if addr = 0 then return 0
    else bmapEntry sb addr (bn - nDirect)
  else Act.stop .bmapRange

/-- The loop over the direct blocks in `itrunc`, from `i`, `n` times. -/
def truncDirect (ip : Ptr) : ℕ → ℕ → FsM Unit
  | 0, _ => return ()
  | n + 1, i => do
    let s ← get
    if (s.inode ip).d.addrs i ≠ 0 then do
      bfree ((s.inode ip).d.addrs i)
      modify fun s => s.setAddr ip i 0
      truncDirect ip n (i + 1)
    else truncDirect ip n (i + 1)

/-- The loop over the entries of the indirect block `a`, from `j`, `n` times. -/
def truncEntries (a : Block) : ℕ → ℕ → FsM Unit
  | 0, _ => return ()
  | n + 1, j =>
    if getUint a j ≠ 0 then do
      bfree (getUint a j)
      truncEntries a n (j + 1)
    else truncEntries a n (j + 1)

def truncIndirect (ip : Ptr) : FsM Unit := do
  let s ← get
  if (s.inode ip).d.addrs nDirect ≠ 0 then do
    truncEntries (s.block ((s.inode ip).d.addrs nDirect)) nIndirect 0
    bfree ((s.inode ip).d.addrs nDirect)
    modify fun s => s.setAddr ip nDirect 0
  else return ()

def itrunc (ip : Ptr) : FsM Unit := do
  truncDirect ip nDirect 0
  truncIndirect ip
  modify fun s => s.setD ip fun d => { d with size := 0 }
  iupdate ip

/-- `iput` of the last reference to an inode without links. -/
def ifree (ip : Ptr) : FsM Unit := do
  acquiresleep ip
  itrunc ip
  modify fun s => s.setD ip fun d => { d with type := .free }
  iupdate ip
  modify fun s => s.setInode ip fun n => { n with valid := false }
  releasesleep ip

def idrop (ip : Ptr) : FsM Unit :=
  modify fun s => s.setInode ip fun n => { n with ref := n.ref - 1 }

def iput (ip : Ptr) : FsM Unit := do
  let s ← get
  if (s.inode ip).ref = 1 ∧ (s.inode ip).valid = true ∧ (s.inode ip).d.nlink = 0 then do
    ifree ip
    idrop ip
  else idrop ip

def iunlockput (ip : Ptr) : FsM Unit := do
  iunlock ip
  iput ip

/-- The loop of `readi`, with the bytes read so far. -/
def readLoop (sb : Super) (ip : Ptr) (copy : ℕ → Bool) (n : ℕ) :
    ℕ → ℕ → ℕ → List UInt8 → FsM (Option (List UInt8))
  | 0, _, _, acc => return some acc
  | fuel + 1, tot, off, acc =>
    if tot < n then do
      let addr ← bmap sb ip (off / bSize)
      if addr = 0 then return some acc
      else do
        let s ← get
        let m := min (n - tot) (bSize - off % bSize)
        if copy tot then
          readLoop sb ip copy n fuel (tot + m) (off + m)
            (acc ++ (List.range m).map fun i => s.block addr (off % bSize + i))
        else return none
    else return some acc

/-- `readi`: the bytes read; none if a copy to user memory failed. -/
def readi (sb : Super) (ip : Ptr) (copy : ℕ → Bool) (off n : ℕ) : FsM (Option (List UInt8)) := do
  let s ← get
  let size := (s.inode ip).d.size
  if size < off ∨ (off + n) % 2 ^ 32 < off then return some []
  else
    let n := if size < off + n then size - off else n
    readLoop sb ip copy n n 0 off []

/-- The loop of `writei`: how many bytes were written, and the offset behind them. -/
def writeLoop (sb : Super) (ip : Ptr) (src : ℕ → UInt8) (copy : ℕ → Option ℕ) (n : ℕ) :
    ℕ → ℕ → ℕ → FsM (ℕ × ℕ)
  | 0, tot, off => return (tot, off)
  | fuel + 1, tot, off =>
    if tot < n then do
      let addr ← bmap sb ip (off / bSize)
      if addr = 0 then return (tot, off)
      else
        let m := min (n - tot) (bSize - off % bSize)
        match copy tot with
        | none => do
          modify fun s => s.setBlock addr fun b => overlay b (off % bSize) m fun i => src (tot + i)
          writeLoop sb ip src copy n fuel (tot + m) (off + m)
        | some k => do
          modify fun s =>
            s.setBlock addr fun b => overlay b (off % bSize) (min k m) fun i => src (tot + i)
          return (tot, off)
    else return (tot, off)

/-- `writei`: how many bytes were written; none for -1. -/
def writei (sb : Super) (ip : Ptr) (src : ℕ → UInt8) (copy : ℕ → Option ℕ) (off n : ℕ) :
    FsM (Option ℕ) := do
  let s ← get
  if (s.inode ip).d.size < off ∨ (off + n) % 2 ^ 32 < off then return none
  else if maxFile * bSize < (off + n) % 2 ^ 32 then return none
  else do
    let r ← writeLoop sb ip src copy n n 0 off
    modify fun s => s.setD ip fun d => { d with size := if d.size < r.2 then r.2 else d.size }
    iupdate ip
    return some r.1

end Xv6.Fs
