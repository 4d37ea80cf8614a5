/-
  The system calls of `kernel/sysfile.c` that work on names, with the open files of
  `kernel/file.c` and the part of `kexit` that gives up files and the working directory.

  A call is executed as a whole, by one process. A path is `none` when it cannot be fetched from
  user memory. Pipes, and the calls that read and write open files, are left out.
-/
import Xv6.Fs.Dir

namespace Xv6.Fs

open Lib Function

/-- Open files in the system, and for a process. -/
abbrev nFile : ℕ := 100

abbrev nOFile : ℕ := 16

/-- `NDEV` -/
def nDev : ℤ := 10

/-! ## Links -/

/-- `create`, with the lock of the inode that it returns held. -/
def create (sb : Super) (cwd : Ptr) (path : Path) (type : IType) (major minor : BitVec 16) :
    FsM (Option Ptr) := do
  let r ← nameiparent sb cwd path
  match r with
  | none => return none
  | some (dp, name) => do
    ilock dp
    let r ← dirlookup sb dp name
    match r with
    | some (ip, _) => createOld dp ip type
    | none => do
      let r ← ialloc sb type
      match r with
      | none => do
        iunlockput dp
        return none
      | some ip => do
        ilock ip
        modify fun s => s.setD ip fun d => { d with major := major, minor := minor, nlink := 1 }
        iupdate ip
        let ok ← createDots sb dp ip type
        let ok ← if ok then createLink sb dp ip name else pure false
        if ok then createDone dp ip type else createFail dp ip
where
  /-- The name exists. -/
  createOld (dp ip : Ptr) (type : IType) : FsM (Option Ptr) := do
    iunlockput dp
    ilock ip
    let s ← get
    if type = .file ∧ ((s.inode ip).d.type = .file ∨ (s.inode ip).d.type = .device) then
      return some ip
    else do
      iunlockput ip
      return none
  /-- `.` and `..` of a new directory. -/
  createDots (sb : Super) (dp ip : Ptr) (type : IType) : FsM Bool := do
    let s ← get
    if type = .dir then do
      let ok ← dirlink sb ip dot (s.inode ip).inum
      if ok then dirlink sb ip dotdot (s.inode dp).inum else return false
    else return true
  createLink (sb : Super) (dp ip : Ptr) (name : Name) : FsM Bool := do
    let s ← get
    dirlink sb dp name (s.inode ip).inum
  createDone (dp ip : Ptr) (type : IType) : FsM (Option Ptr) := do
    if type = .dir then do
      modify fun s => s.setD dp fun d => { d with nlink := d.nlink + 1 }
      iupdate dp
      iunlockput dp
      return some ip
    else do
      iunlockput dp
      return some ip
  createFail (dp ip : Ptr) : FsM (Option Ptr) := do
    modify fun s => s.setD ip fun d => { d with nlink := 0 }
    iupdate ip
    iunlockput ip
    iunlockput dp
    return none

/-- `sys_link`; false for -1. -/
def sysLink (sb : Super) (cwd : Ptr) (old new : Option Path) : FsM Bool := do
  match old, new with
  | some old, some new => do
    let r ← namei sb cwd old
    match r with
    | none => return false
    | some ip => do
      ilock ip
      let s ← get
      if (s.inode ip).d.type = .dir then do
        iunlockput ip
        return false
      else do
        modify fun s => s.setD ip fun d => { d with nlink := d.nlink + 1 }
        iupdate ip
        iunlock ip
        let r ← nameiparent sb cwd new
        match r with
        | none => linkBad ip
        | some (dp, name) => do
          ilock dp
          let s ← get
          let ok ← dirlink sb dp name (s.inode ip).inum
          iunlockput dp
          if ok then do
            iput ip
            return true
          else linkBad ip
  | _, _ => return false
where
  linkBad (ip : Ptr) : FsM Bool := do
    ilock ip
    modify fun s => s.setD ip fun d => { d with nlink := d.nlink - 1 }
    iupdate ip
    iunlockput ip
    return false

/-- `sys_unlink`; false for -1. -/
def sysUnlink (sb : Super) (cwd : Ptr) (path : Option Path) : FsM Bool := do
  match path with
  | none => return false
  | some path => do
    let r ← nameiparent sb cwd path
    match r with
    | none => return false
    | some (dp, name) => do
      ilock dp
      if namecmp name.byte dot.byte ∨ namecmp name.byte dotdot.byte then unlinkBad dp
      else do
        let r ← dirlookup sb dp name
        match r with
        | none => unlinkBad dp
        | some (ip, off) => do
          ilock ip
          let s ← get
          if (s.inode ip).d.nlink.toInt < 1 then Act.stop .unlinkNlink
          else if (s.inode ip).d.type = .dir then do
            let empty ← isdirempty sb ip
            if empty then unlinkEntry sb dp ip off
            else do
              iunlockput ip
              unlinkBad dp
          else unlinkEntry sb dp ip off
where
  unlinkBad (dp : Ptr) : FsM Bool := do
    iunlockput dp
    return false
  /-- The entry at `off` is cleared. -/
  unlinkEntry (sb : Super) (dp ip : Ptr) (off : ℕ) : FsM Bool := do
    let w ← writei sb dp (fun _ => 0) (fun _ => none) off direntSize
    if w ≠ some direntSize then Act.stop .unlinkWritei
    else do
      let s ← get
      if (s.inode ip).d.type = .dir then do
        modify fun s => s.setD dp fun d => { d with nlink := d.nlink - 1 }
        iupdate dp
        unlinkDone dp ip
      else unlinkDone dp ip
  unlinkDone (dp ip : Ptr) : FsM Bool := do
    iunlockput dp
    modify fun s => s.setD ip fun d => { d with nlink := d.nlink - 1 }
    iupdate ip
    iunlockput ip
    return true

/-- `sys_mkdir` and `sys_mknod` -/
def sysMake (sb : Super) (cwd : Ptr) (path : Option Path) (type : IType) (major minor : BitVec 16) :
    FsM Bool := do
  match path with
  | none => return false
  | some path => do
    let r ← create sb cwd path type major minor
    match r with
    | none => return false
    | some ip => do
      iunlockput ip
      return true

def sysMkdir (sb : Super) (cwd : Ptr) (path : Option Path) : FsM Bool :=
  sysMake sb cwd path .dir 0 0

def sysMknod (sb : Super) (cwd : Ptr) (path : Option Path) (major minor : BitVec 16) : FsM Bool :=
  sysMake sb cwd path .device major minor

/-! ## Open files -/

inductive FdType where
  | none
  | inode
  | device
  deriving DecidableEq, Repr

structure File where
  type : FdType
  ref : ℕ
  readable : Bool
  writable : Bool
  ip : Ptr
  off : ℕ
  major : BitVec 16

structure Proc where
  /-- None after `kexit`. -/
  cwd : Option Ptr
  ofile : Fin nOFile → Option (Fin nFile)

/-- The file system and the processes `ι`. -/
structure Sys (ι : Type) where
  store : Store
  file : Fin nFile → File
  proc : ι → Proc

variable {ι : Type} [DecidableEq ι]

abbrev SysM (ι : Type) := Act (Sys ι) Stop

def onStore {α : Type} (m : FsM α) : SysM ι α :=
  Act.zoom Sys.store (fun t s => { t with store := s }) m

def setFile (f : Fin nFile) (g : File → File) : SysM ι Unit :=
  modify fun t => { t with file := update t.file f (g (t.file f)) }

def setProc (p : ι) (g : Proc → Proc) : SysM ι Unit :=
  modify fun t => { t with proc := update t.proc p (g (t.proc p)) }

def filealloc : SysM ι (Option (Fin nFile)) := do
  let t ← get
  match (List.finRange nFile).find? fun f => (t.file f).ref == 0 with
  | some f => do
    setFile f fun n => { n with ref := 1 }
    return some f
  | none => return none

def fdalloc (p : ι) (f : Fin nFile) : SysM ι (Option (Fin nOFile)) := do
  let t ← get
  match (List.finRange nOFile).find? fun fd => ((t.proc p).ofile fd).isNone with
  | some fd => do
    setProc p fun n => { n with ofile := update n.ofile fd (some f) }
    return some fd
  | none => return none

def fileclose (f : Fin nFile) : SysM ι Unit := do
  let t ← get
  if (t.file f).ref < 1 then Act.stop .fileclose
  else if 0 < (t.file f).ref - 1 then setFile f fun n => { n with ref := n.ref - 1 }
  else do
    setFile f fun n => { n with ref := 0, type := .none }
    if (t.file f).type = .inode ∨ (t.file f).type = .device then onStore (iput (t.file f).ip)
    else return ()

/-- The flags of `open`. -/
def oWronly (omode : BitVec 32) : Bool := omode.getLsbD 0

def oRdwr (omode : BitVec 32) : Bool := omode.getLsbD 1

def oCreate (omode : BitVec 32) : Bool := omode.getLsbD 9

def oTrunc (omode : BitVec 32) : Bool := omode.getLsbD 10

/-- The first half of `sys_open`: the inode, locked. -/
def openInode (sb : Super) (cwd : Ptr) (path : Path) (omode : BitVec 32) : FsM (Option Ptr) := do
  if oCreate omode then create sb cwd path .file 0 0
  else do
    let r ← namei sb cwd path
    match r with
    | none => return none
    | some ip => do
      ilock ip
      let s ← get
      if (s.inode ip).d.type = .dir ∧ omode ≠ 0 then do
        iunlockput ip
        return none
      else return some ip

/-- The second half: the file and its descriptor. -/
def openFile (p : ι) (ip : Ptr) (omode : BitVec 32) : SysM ι (Option (Fin nOFile)) := do
  let t ← get
  let d := (t.store.inode ip).d
  if d.type = .device ∧ (d.major.toInt < 0 ∨ nDev ≤ d.major.toInt) then do
    onStore (iunlockput ip)
    return none
  else do
    let r ← filealloc
    match r with
    | none => do
      onStore (iunlockput ip)
      return none
    | some f => do
      let r ← fdalloc p f
      match r with
      | none => do
        fileclose f
        onStore (iunlockput ip)
        return none
      | some fd => do
        setFile f fun n =>
          if d.type = .device then
            { n with type := .device, major := d.major, ip := ip, readable := !oWronly omode,
                     writable := oWronly omode || oRdwr omode }
          else
            { n with type := .inode, off := 0, ip := ip, readable := !oWronly omode,
                     writable := oWronly omode || oRdwr omode }
        if oTrunc omode ∧ d.type = .file then do
          onStore (itrunc ip)
          onStore (iunlock ip)
          return some fd
        else do
          onStore (iunlock ip)
          return some fd

/-- `sys_open`, by process `p` in directory `cwd`; none for -1. -/
def sysOpen (sb : Super) (p : ι) (cwd : Ptr) (path : Option Path) (omode : BitVec 32) :
    SysM ι (Option (Fin nOFile)) := do
  match path with
  | none => return none
  | some path => do
    let r ← onStore (openInode sb cwd path omode)
    match r with
    | none => return none
    | some ip => openFile p ip omode

/-- `sys_chdir`; false for -1. -/
def sysChdir (sb : Super) (p : ι) (cwd : Ptr) (path : Option Path) : SysM ι Bool := do
  match path with
  | none => return false
  | some path => do
    let r ← onStore (namei sb cwd path)
    match r with
    | none => return false
    | some ip => do
      onStore (ilock ip)
      let t ← get
      if (t.store.inode ip).d.type ≠ .dir then do
        onStore (iunlockput ip)
        return false
      else do
        onStore (iunlock ip)
        onStore (iput cwd)
        setProc p fun n => { n with cwd := some ip }
        return true

/-- `sys_close`; false for -1. -/
def sysClose (p : ι) (fd : Fin nOFile) : SysM ι Bool := do
  let t ← get
  match (t.proc p).ofile fd with
  | none => return false
  | some f => do
    setProc p fun n => { n with ofile := update n.ofile fd none }
    fileclose f
    return true

/-- `kexit`: close all open files. -/
def closeAll (p : ι) : List (Fin nOFile) → SysM ι Unit
  | [] => return ()
  | fd :: fds => do
    let t ← get
    match (t.proc p).ofile fd with
    | none => closeAll p fds
    | some f => do
      fileclose f
      setProc p fun n => { n with ofile := update n.ofile fd none }
      closeAll p fds

def kexit (p : ι) (cwd : Ptr) : SysM ι Unit := do
  closeAll p (List.finRange nOFile)
  onStore (iput cwd)
  setProc p fun n => { n with cwd := none }

end Xv6.Fs
