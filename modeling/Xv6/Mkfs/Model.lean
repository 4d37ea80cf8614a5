/-
  `mkfs/mkfs.c`: the program that writes the first file system.

  The image has `FSSIZE` blocks. A sector behind the end cannot be read, and every sector is read
  before it is written, so the image does not grow. Inodes and data blocks are handed out by two
  counters; nothing checks the counter of the inodes.

  A file of the host is the path that is given on the command line and what `read` returns for it,
  one chunk after the other.
-/
import Xv6.Fs.Dir
import Xv6.Mkfs.Format

namespace Xv6.Mkfs

open Fs Lib Function

/-! ## Layout -/

def fsSize : ℕ := 2000

def nInodes : ℕ := 200

def logBlocks : ℕ := 30

def nbitmap : ℕ := fsSize / bpb + 1

def ninodeblocks : ℕ := nInodes / ipb + 1

def nlog : ℕ := logBlocks + 1

/-- Boot block, super block, log, inodes, free map. -/
def nmeta : ℕ := 2 + nlog + ninodeblocks + nbitmap

def nblocks : ℕ := fsSize - nmeta

def superBlock : SuperBlock where
  magic := fsMagic
  size := fsSize
  nblocks := nblocks
  ninodes := nInodes
  nlog := nlog
  logstart := 2
  inodestart := 2 + nlog
  bmapstart := 2 + nlog + ninodeblocks

/-! ## Sectors and inodes -/

/-- The image and the two counters. -/
structure Mk where
  img : Image
  freeinode : ℕ
  freeblock : ℕ

/-- The assertions of `mkfs.c`, and a sector that cannot be read. -/
inductive Abort where
  | rootino
  | slash
  | nameLength
  | fileSize
  | bitmapSize
  | read
  deriving DecidableEq, Repr

abbrev MkM := Act Mk Abort

def wsect (sec : ℕ) (buf : Block) : MkM Unit :=
  modify fun m => { m with img := update m.img sec buf }

def rsect (sec : ℕ) : MkM Block := do
  let m ← get
  if sec < fsSize then return m.img sec else Act.stop .read

def winode (inum : ℕ) (d : Dinode) : MkM Unit := do
  let buf ← rsect (superBlock.iblock inum)
  wsect (superBlock.iblock inum) (putDinode buf (inum % ipb) d)

def rinode (inum : ℕ) : MkM Dinode := do
  let buf ← rsect (superBlock.iblock inum)
  return getDinode buf (inum % ipb)

def ialloc (type : IType) : MkM ℕ := do
  let m ← get
  set { m with freeinode := m.freeinode + 1 }
  winode m.freeinode { Dinode.fresh type with nlink := 1 }
  return m.freeinode

/-- The loop of `balloc`: the bits below `used`. -/
def markUsed : ℕ → Block
  | 0 => fun _ => 0
  | i + 1 =>
    update (markUsed i) (i / 8) (markUsed i (i / 8) ||| (1 <<< UInt8.ofNat (i % 8)))

def balloc (used : ℕ) : MkM Unit :=
  if used < bpb then wsect superBlock.bmapstart (markUsed used) else Act.stop .bitmapSize

/-! ## Content -/

/-- `freeblock++` -/
def newBlock : MkM ℕ := do
  let m ← get
  set { m with freeblock := m.freeblock + 1 }
  return m.freeblock

/-- `addrs[k]`, allocated if it is 0. -/
def addrFor (d : Dinode) (k : ℕ) : MkM (ℕ × Dinode) :=
  if d.addrs k = 0 then do
    let x ← newBlock
    return (x, { d with addrs := update d.addrs k x })
  else return (d.addrs k, d)

/-- Entry `j` of the indirect block `ind`, allocated if it is 0. -/
def entryFor (ind j : ℕ) : MkM ℕ := do
  let indirect ← rsect ind
  if getUint indirect j = 0 then do
    let x ← newBlock
    wsect ind (putUint indirect j x)
    return x
  else return getUint indirect j

/-- The sector of block `fbn` of a file. -/
def sectorFor (d : Dinode) (fbn : ℕ) : MkM (ℕ × Dinode) :=
  if fbn < nDirect then addrFor d fbn
  else do
    let r ← addrFor d nDirect
    let x ← entryFor r.1 (fbn - nDirect)
    return (x, r.2)

/-- The loop of `iappend`: `n` bytes from `p` are left. -/
def appendLoop : ℕ → (ℕ → UInt8) → ℕ → ℕ → Dinode → MkM (ℕ × Dinode)
  | 0, _, _, off, d => return (off, d)
  | fuel + 1, p, n, off, d =>
    if 0 < n then
      let fbn := off / bSize
      if fbn < maxFile then do
        let r ← sectorFor d fbn
        let n1 := min n ((fbn + 1) * bSize - off)
        let buf ← rsect r.1
        wsect r.1 (overlay buf (off - fbn * bSize) n1 p)
        appendLoop fuel (fun i => p (n1 + i)) (n - n1) (off + n1) r.2
      else Act.stop .fileSize
    else return (off, d)

def iappend (inum : ℕ) (p : ℕ → UInt8) (n : ℕ) : MkM Unit := do
  let d ← rinode inum
  let r ← appendLoop n p n d.size d
  winode inum { r.2 with size := r.1 }

/-! ## The program -/

structure HostFile where
  path : List UInt8
  /-- What `read` returns, until it returns 0. -/
  chunks : List (List UInt8)
  path_ne : ∀ c ∈ path, c ≠ 0
  chunk_pos : ∀ c ∈ chunks, 0 < c.length
  chunk_le : ∀ c ∈ chunks, c.length ≤ bSize

def HostFile.data (f : HostFile) : List UInt8 := f.chunks.flatten

/-- `"user/"` -/
def userDir : List UInt8 := [117, 115, 101, 114, 47]

def stripUser (path : List UInt8) : List UInt8 :=
  if path.take userDir.length = userDir then path.drop userDir.length else path

/-- Skip a leading `_`. -/
def stripUnderscore : List UInt8 → List UInt8
  | 95 :: name => name
  | name => name

def HostFile.shortname (f : HostFile) : Name := stripUnderscore (stripUser f.path)

def appendChunks (inum : ℕ) : List (List UInt8) → MkM Unit
  | [] => return ()
  | c :: cs => do
    iappend inum (fun i => c.getD i 0) c.length
    appendChunks inum cs

def addFile (f : HostFile) : MkM Unit :=
  if slash ∈ stripUser f.path then Act.stop .slash
  else if dirSiz < f.shortname.length then Act.stop .nameLength
  else do
    let inum ← ialloc .file
    iappend rootIno (direntBytes f.shortname inum) direntSize
    appendChunks inum f.chunks

def addFiles : List HostFile → MkM Unit
  | [] => return ()
  | f :: fs => do
    addFile f
    addFiles fs

/-- The size of the root directory is rounded up. -/
def fixRoot : MkM Unit := do
  let d ← rinode rootIno
  winode rootIno { d with size := (d.size / bSize + 1) * bSize }

def addRoot : MkM Unit := do
  let rootino ← ialloc .dir
  if rootino = rootIno then do
    iappend rootino (direntBytes dot rootino) direntSize
    iappend rootino (direntBytes dotdot rootino) direntSize
  else Act.stop .rootino

/-- `main`, once the blocks are zero and the super block is written. -/
def mkfs (files : List HostFile) : MkM Unit := do
  addRoot
  addFiles files
  fixRoot
  let m ← get
  balloc m.freeblock

def Mk.start : Mk where
  img := update (fun _ _ => 0) 1 superBlock.block
  freeinode := 1
  freeblock := nmeta

/-- The image that `mkfs` writes for a list of files. -/
def makeImage (files : List HostFile) : Except Abort Image :=
  match mkfs files Mk.start with
  | .ok (_, m) => .ok m.img
  | .error e => .error e

end Xv6.Mkfs
