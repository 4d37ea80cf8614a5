/-
  The upper half of `kernel/fs.c`: directories and path names, from `dirlookup` to `namex`.

  A directory is a file that consists of entries of 16 bytes. A path element is given by its
  bytes, at most `DIRSIZ` of them; the byte behind the last one reads as 0, as in the buffer of
  `namex`. A path is a string without its final 0.
-/
import Xv6.Fs.Disk

namespace Xv6.Fs

open Lib

def dirSiz : ℕ := 14

/-- `sizeof(struct dirent)` -/
def direntSize : ℕ := 16

def rootIno : ℕ := 1

abbrev Name := List UInt8

abbrev Path := List UInt8

def Name.byte (name : Name) (i : ℕ) : UInt8 := name.getD i 0

structure Dirent where
  inum : ℕ
  name : ℕ → UInt8

/-- The bytes of a directory entry, from the place where it starts. -/
def Dirent.read (b : ℕ → UInt8) : Dirent where
  inum := (b 0).toNat + 256 * (b 1).toNat
  name := fun i => b (2 + i)

/-- `strncpy(de.name, name, DIRSIZ); de.inum = inum` -/
def direntBytes (name : Name) (inum : ℕ) : ℕ → UInt8
  | 0 => UInt8.ofNat inum
  | 1 => UInt8.ofNat (inum / 256)
  | i + 2 => name.byte i

/-- `strncmp(p, q, n) == 0`, from position `i`. -/
def strncmp (p q : ℕ → UInt8) : ℕ → ℕ → Bool
  | 0, _ => true
  | n + 1, i => if p i ≠ 0 ∧ p i = q i then strncmp p q n (i + 1) else p i == q i

/-- `namecmp(s, t) == 0` -/
def namecmp (s t : ℕ → UInt8) : Bool := strncmp s t dirSiz 0

/-! ## Directories -/

/-- Read the entry at `off`, and panic if it is not complete. -/
def readDirent (sb : Super) (dp : Ptr) (e : Stop) (off : ℕ) : FsM Dirent := do
  let r ← readi sb dp (fun _ => true) off direntSize
  match r with
  | some l => if l.length = direntSize then return .read fun i => l.getD i 0 else Act.stop e
  | none => Act.stop e

/-- The loop of `dirlookup`: inode number and offset of the entry. -/
def lookupLoop (sb : Super) (dp : Ptr) (name : Name) : ℕ → ℕ → FsM (Option (ℕ × ℕ))
  | 0, _ => return none
  | fuel + 1, off => do
    let s ← get
    if off < (s.inode dp).d.size then do
      let de ← readDirent sb dp .dirlookupRead off
      if de.inum = 0 then lookupLoop sb dp name fuel (off + direntSize)
      else if namecmp name.byte de.name then return some (de.inum, off)
      else lookupLoop sb dp name fuel (off + direntSize)
    else return none

/-- `dirlookup`: the inode and the offset of its entry. -/
def dirlookup (sb : Super) (dp : Ptr) (name : Name) : FsM (Option (Ptr × ℕ)) := do
  let s ← get
  if (s.inode dp).d.type ≠ .dir then Act.stop .notDir
  else do
    let r ← lookupLoop sb dp name ((s.inode dp).d.size / direntSize + 1) 0
    match r with
    | some (inum, off) => do
      let ip ← iget inum
      return some (ip, off)
    | none => return none

/-- The offset of the first empty entry, or the end. -/
def emptyLoop (sb : Super) (dp : Ptr) : ℕ → ℕ → FsM ℕ
  | 0, off => return off
  | fuel + 1, off => do
    let s ← get
    if off < (s.inode dp).d.size then do
      let de ← readDirent sb dp .dirlinkRead off
      if de.inum = 0 then return off
      else emptyLoop sb dp fuel (off + direntSize)
    else return off

/-- `dirlink`; false for -1. -/
def dirlink (sb : Super) (dp : Ptr) (name : Name) (inum : ℕ) : FsM Bool := do
  let r ← dirlookup sb dp name
  match r with
  | some (ip, _) => do
    iput ip
    return false
  | none => do
    let s ← get
    let off ← emptyLoop sb dp ((s.inode dp).d.size / direntSize + 1) 0
    let w ← writei sb dp (direntBytes name inum) (fun _ => none) off direntSize
    return w == some direntSize

/-- The loop of `isdirempty`. -/
def emptyFrom (sb : Super) (dp : Ptr) : ℕ → ℕ → FsM Bool
  | 0, _ => return true
  | fuel + 1, off => do
    let s ← get
    if off < (s.inode dp).d.size then do
      let de ← readDirent sb dp .isdiremptyReadi off
      if de.inum = 0 then emptyFrom sb dp fuel (off + direntSize)
      else return false
    else return true

def isdirempty (sb : Super) (dp : Ptr) : FsM Bool := do
  let s ← get
  emptyFrom sb dp ((s.inode dp).d.size / direntSize + 1) (2 * direntSize)

/-! ## Paths -/

/-- `'/'` -/
def slash : UInt8 := 47

/-- `"."` -/
def dot : Name := [46]

/-- `".."` -/
def dotdot : Name := [46, 46]

/-- `skipelem`: the first element and the path behind it. -/
def skipelem (path : Path) : Option (Name × Path) :=
  match path.dropWhile (· == slash) with
  | [] => none
  | c :: rest =>
    some (((c :: rest).takeWhile (· != slash)).take dirSiz,
      ((c :: rest).dropWhile (· != slash)).dropWhile (· == slash))

/-- The loop of `namex`, at `ip`; the name is the element that `nameiparent` copies. -/
def namexLoop (sb : Super) (parent : Bool) : ℕ → Ptr → Path → FsM (Option (Ptr × Name))
  | 0, ip, _ => do
    iput ip
    return none
  | fuel + 1, ip, path =>
    match skipelem path with
    | none =>
      if parent then do
        iput ip
        return none
      else return some (ip, [])
    | some (name, rest) => do
      ilock ip
      let s ← get
      if (s.inode ip).d.type ≠ .dir then do
        iunlockput ip
        return none
      else if parent ∧ rest = [] then do
        iunlock ip
        return some (ip, name)
      else do
        let r ← dirlookup sb ip name
        match r with
        | none => do
          iunlockput ip
          return none
        | some (next, _) => do
          iunlockput ip
          namexLoop sb parent fuel next rest

/-- `namex`. Every element takes at least one byte of the path, so the loop ends. -/
def namex (sb : Super) (cwd : Ptr) (path : Path) (parent : Bool) : FsM (Option (Ptr × Name)) := do
  let ip ← if path.head? = some slash then iget rootIno else idup cwd
  namexLoop sb parent (path.length + 1) ip path

def namei (sb : Super) (cwd : Ptr) (path : Path) : FsM (Option Ptr) := do
  let r ← namex sb cwd path false
  return r.map Prod.fst

def nameiparent (sb : Super) (cwd : Ptr) (path : Path) : FsM (Option (Ptr × Name)) :=
  namex sb cwd path true

end Xv6.Fs
