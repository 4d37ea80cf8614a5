/-
  The memory of a process: the page-table functions of `kernel/proc.c`, `proc_kpagetable` and
  `proc_free_kpagetable` of `kernel/vm.c`, `growproc` and `sys_sbrk`, `kfork`, and `kexec` with
  `sys_exec`; and the memory that the kernel takes when it boots.

  A function that works on a `struct proc` takes and returns the record of `Process.Model`,
  where the pointers are page numbers and 0 is null. The file system enters `kexec` as what
  `namei` finds and `readi` delivers, and `kexec` returns its calls to it.
-/
import Xv6.Process.System
import Xv6.Vm.Fault

namespace Xv6.Vm

open Lib Process

variable (L : Layout)

/-! ## User page tables -/

def procPagetable (trapframe : ℕ) : K (Option ℕ) := do
  match ← uvmcreate with
  | none => .ret none
  | some pagetable => do
    if ← mappages pagetable trampoline pgSize L.trampoline { r := true, x := true } then do
      if ← mappages pagetable trapframeVa pgSize trapframe { r := true, w := true } then
        .ret (some pagetable)
      else do
        uvmunmap L pagetable trampoline 1 false
        uvmfree L pagetable 0
        .ret none
    else do
      uvmfree L pagetable 0
      .ret none

def procFreepagetable (pagetable sz : ℕ) : K Unit := do
  uvmunmap L pagetable trampoline 1 false
  uvmunmap L pagetable trapframeVa 1 false
  uvmfree L pagetable sz

/-! ## Kernel page tables -/

/-- `mappages`, with a panic where that fails. -/
def mapOrPanic (e : Panic) (pagetable va pa size : ℕ) (perm : Flags) : K Unit := do
  if ← mappages pagetable va size pa perm then .ret () else .fail e

def uvmmap : ℕ → ℕ → ℕ → ℕ → Flags → K Unit := mapOrPanic .uvmmap

def kvmmap : ℕ → ℕ → ℕ → ℕ → Flags → K Unit := mapOrPanic .kvmmap

/-- A range that every kernel page table maps. -/
structure Region where
  va : ℕ
  pa : ℕ
  size : ℕ
  perm : Flags

/-- What `kvmmake` and `proc_kpagetable` map, in this order. -/
def regions : List Region :=
  [⟨uart0, uart0 / pgSize, pgSize, { r := true, w := true }⟩,
    ⟨virtio0, virtio0 / pgSize, pgSize, { r := true, w := true }⟩,
    ⟨plic, plic / pgSize, L.plicLen, { r := true, w := true }⟩,
    ⟨kernBase, kernBase / pgSize, L.etext * pgSize - kernBase, { r := true, x := true }⟩,
    ⟨L.etext * pgSize, L.etext, L.top * pgSize - L.etext * pgSize, { r := true, w := true }⟩,
    ⟨trampoline, L.trampoline, pgSize, { r := true, x := true }⟩]

def mapRegions (map : ℕ → ℕ → ℕ → ℕ → Flags → K Unit) (pagetable : ℕ) : List Region → K Unit
  | [] => .ret ()
  | g :: gs => do
    map pagetable g.va g.pa g.size g.perm
    mapRegions map pagetable gs

def procKpagetable : K (Option ℕ) := do
  match ← uvmcreate with
  | none => .ret none
  | some kpt => do
    mapRegions uvmmap kpt (regions L)
    .ret (some kpt)

/-- The calls of `uvmunmap` that leave the physical pages alone. -/
def unmapRegions (kpt : ℕ) : List Region → K Unit
  | [] => .ret ()
  | g :: gs => do
    uvmunmap L kpt g.va (g.size / pgSize) false
    unmapRegions kpt gs

def procFreeKpagetable (kpt kstack : ℕ) : K Unit := do
  uvmunmap L kpt kstack 1 true
  unmapRegions L kpt (regions L)
  uvmfree L kpt 0

def kvmmake : K ℕ := do
  match ← kalloc with
  | none => .fail .null
  | some kpgtbl => do
    clearTable kpgtbl
    mapRegions kvmmap kpgtbl (regions L)
    .ret kpgtbl

/-- The allocations of `virtio_disk_init`; the result is `disk.desc`, `disk.avail` and
    `disk.used`. -/
def virtioDiskInit : K (List ℕ) := do
  match ← kalloc, ← kalloc, ← kalloc with
  | some desc, some avail, some used => do
    memset desc 0
    memset avail 0
    memset used 0
    .ret [desc, avail, used]
  | _, _, _ => .fail .virtioKalloc

/-- The memory that `main` takes before the first process: `kinit`, `kvminit` and
    `virtio_disk_init`. -/
def bootMem : K (ℕ × List ℕ) := do
  freerange L
  let kpgtbl ← kvmmake L
  let disk ← virtioDiskInit
  .ret (kpgtbl, disk)

/-! ## Processes -/

/-- `m` unless the pointer is null. -/
def unlessNull (ptr : ℕ) (m : K Unit) : K Unit :=
  if ptr ≠ 0 then m else .ret ()

/-- What `freeproc` gives back. -/
def freeprocMem (p : Proc) : K Unit := do
  unlessNull p.trapframe (kfree L p.trapframe)
  unlessNull p.kpagetable (procFreeKpagetable L p.kpagetable p.kstack)
  unlessNull p.pagetable (procFreepagetable L p.pagetable p.sz)

/-- `allocproc` once it has found slot `i`: the record, or `none` after `freeproc`. -/
def allocprocMem (i : Slot) (pid : ℤ) (p : Proc) : K (Option Proc) := do
  let p := allocFound p pid
  match ← kalloc with
  | none => do
    freeprocMem L p
    .ret none
  | some trapframe => do
    let p := { p with trapframe := trapframe }
    match ← procPagetable L p.trapframe with
    | none => do
      freeprocMem L p
      .ret none
    | some pagetable => do
      let p := { p with pagetable := pagetable }
      match ← procKpagetable L with
      | none => do
        freeprocMem L p
        .ret none
      | some kpagetable => do
        let p := { p with kpagetable := kpagetable }
        match ← kalloc with
        | none => do
          freeprocMem L p
          .ret none
        | some pa => do
          uvmmap p.kpagetable (kstackVa i) pa pgSize { r := true, w := true }
          .ret (some { p with kstack := kstackVa i })

/-- `kfork` of process `p` once `allocproc` has found slot `i` with the record `np`: the child
    before it is given a parent and made runnable, or `none` for -1. -/
def kfork (p : Proc) (i : Slot) (pid : ℤ) (np : Proc) : K (Option Proc) := do
  match ← allocprocMem L i pid np with
  | none => .ret none
  | some np => do
    if ← uvmcopy L p.pagetable np.pagetable p.sz then .ret (some (forkCopy p np))
    else do
      freeprocMem L np
      .ret none

/-- The new size, or `none` for -1. -/
def growproc (p : Proc) (n : ℤ) : K (Option ℕ) :=
  if 0 < n then
    if trapframeVa < p.sz + n.toNat then .ret none
    else do
      let sz ← uvmalloc L p.pagetable p.sz (p.sz + n.toNat) { w := true }
      if sz = 0 then .ret none else .ret (some sz)
  else if n < 0 then do
    -- `sz + n` is computed modulo 2^64
    let sz ← uvmdealloc L p.pagetable p.sz ((p.sz + n) % 2 ^ 64).toNat
    .ret (some sz)
  else .ret (some p.sz)

/-- The new size, or `none` for -1. -/
def sysSbrk (p : Proc) (n t : ℤ) : K (Option ℕ) :=
  if t = 1 ∨ n < 0 then growproc L p n
  else if trapframeVa < p.sz + n.toNat then .ret none
  else .ret (some (p.sz + n.toNat))

/-! ## `exec.c` -/

/-- An inode as `readi` shows it: the bytes it delivers for an offset and a length. -/
structure Inode where
  read : ℕ → ℕ → List UInt8
  read_le : ∀ off n, (read off n).length ≤ n

/-- A little-endian field of `n` bytes. -/
def field (l : List UInt8) (off n : ℕ) : ℕ :=
  ((l.drop off).take n).foldr (fun c acc => c.toNat + 256 * acc) 0

def flags2perm (flags : ℕ) : Flags :=
  { x := flags.testBit 0, w := flags.testBit 1 }

/-- The loop of `loadseg`, `n` rounds from offset `i`. -/
def loadsegLoop (pagetable va : ℕ) (ip : Inode) (offset sz : ℕ) : ℕ → ℕ → K Bool
  | 0, _ => .ret true
  | n + 1, i => do
    match ← walkaddr pagetable (va + i) with
    | none => .fail .loadseg
    | some pa => do
      let src := ip.read ((offset + i) % 2 ^ 32) (min pgSize (sz - i))
      memmove pa 0 src
      if src.length = min pgSize (sz - i) then
        loadsegLoop pagetable va ip offset sz n (i + pgSize)
      else .ret false

/-- `true` for 0. `uint i` does not wrap: the pages below `va + sz` are mapped, and there are
    far fewer than 2^20 of them. -/
def loadseg (pagetable va : ℕ) (ip : Inode) (offset sz : ℕ) : K Bool :=
  loadsegLoop pagetable va ip offset sz (pgRoundUp sz / pgSize) 0

/-- The loop over the program headers, `n` of them from offset `off`: the size reached, and
    `false` where it goes to `bad`. -/
def loadSegments (pagetable : ℕ) (ip : Inode) : ℕ → ℕ → ℕ → K (ℕ × Bool)
  | 0, _, sz => .ret (sz, true)
  | n + 1, off, sz =>
    let ph := ip.read off 56
    let filesz := field ph 32 8
    let memsz := field ph 40 8
    let vaddr := field ph 16 8
    if ph.length ≠ 56 then .ret (sz, false)
    else if field ph 0 4 ≠ 1 then loadSegments pagetable ip n ((off + 56) % 2 ^ 32) sz
    else if memsz < filesz then .ret (sz, false)
    else if 2 ^ 64 ≤ vaddr + memsz then .ret (sz, false)
    else if vaddr % pgSize ≠ 0 then .ret (sz, false)
    else do
      let sz1 ← uvmalloc L pagetable sz (vaddr + memsz) (flags2perm (field ph 4 4))
      if sz1 = 0 then .ret (sz, false)
      else do
        if ← loadseg pagetable vaddr ip (field ph 8 8 % 2 ^ 32) (filesz % 2 ^ 32) then
          loadSegments pagetable ip n ((off + 56) % 2 ^ 32) sz1
        else .ret (sz1, false)

/-- The string at the start of a page. -/
def cstr (f : ℕ → UInt8) : List UInt8 := (slice f 0 pgSize).takeWhile (· ≠ 0)

def le64 (n : ℕ) : List UInt8 := (List.range 8).map fun i => UInt8.ofNat (n / 256 ^ i)

/-- `sp -= n; sp -= sp % 16`. -/
def push (sp n : ℕ) : ℕ := (sp - n) - (sp - n) % 16

/-- `ustack[argc] = x`, where `ustack` has the words below `argc`. -/
def setUstack (ustack : List ℕ) (x : ℕ) : K (List ℕ) :=
  if ustack.length < maxArg then .ret (ustack ++ [x]) else .fail .ustack

/-- The loop that copies the argument strings to the new stack: the stack pointer and
    `ustack[]`, or `none` where it goes to `bad`. -/
def pushArgs (p : Cur) (pagetable stackbase : ℕ) :
    List ℕ → ℕ → List ℕ → K (Option (ℕ × List ℕ))
  | [], sp, ustack => .ret (some (sp, ustack))
  | arg :: argv, sp, ustack =>
    if maxArg ≤ ustack.length then .ret none
    else do
      let f ← readBytes arg
      let sp := push sp ((cstr f).length + 1)
      if sp < stackbase then .ret none
      else do
        if ← copyout L p pagetable sp (cstr f ++ [0]) then do
          let ustack ← setUstack ustack sp
          pushArgs p pagetable stackbase argv sp ustack
        else .ret none

/-- The last element of the path, as long as `p->name`. -/
def lastName (path : List UInt8) : String :=
  String.ofList (((path.reverse.takeWhile (· ≠ 47)).reverse.take 15).map fun c =>
    Char.ofNat c.toNat)

/-- `bad`. -/
def execBad (pagetable sz : ℕ) : K (Option ExecResult) := do
  procFreepagetable L pagetable sz
  .ret none

/-- `kexec` from the guard page on. -/
def execStack (p : Proc) (path : List UInt8) (argv : List ℕ) (entry pagetable sz : ℕ) :
    K (Option ExecResult) := do
  let guard := pgRoundUp sz
  let sz := guard + pgSize
  let sz1 ← uvmalloc L pagetable sz (sz + userStack * pgSize) { w := true }
  if sz1 = 0 then execBad L pagetable sz
  else do
    uvmclear pagetable guard
    let stackbase := sz1 - userStack * pgSize
    match ← pushArgs L ⟨p.sz, p.pagetable⟩ pagetable stackbase argv sz1 [] with
    | none => execBad L pagetable sz1
    | some (sp, ptrs) => do
      let ustack ← setUstack ptrs 0
      let sp := push sp (ustack.length * 8)
      if sp < stackbase then execBad L pagetable sz1
      else do
        if ← copyout L ⟨p.sz, p.pagetable⟩ pagetable sp (ustack.flatMap le64) then do
          procFreepagetable L p.pagetable p.sz
          .ret (some
            { sz := sz1, pagetable := pagetable, name := lastName path,
              epc := BitVec.ofNat 64 entry, sp := BitVec.ofNat 64 sp,
              argv := BitVec.ofNat 64 sp, argc := BitVec.ofNat 64 ptrs.length })
        else execBad L pagetable sz1

/-- The calls of `kexec` to the file system. -/
inductive FsCall where
  | beginOp
  | namei (found : Bool)
  | ilock
  | iunlockput
  | endOp
  deriving DecidableEq, Repr

/-- What `bad` calls: with `ip` still set the inode is put back. -/
def badCalls (held : Bool) : List FsCall := if held then [.iunlockput, .endOp] else []

/-- `kexec` with the file that `namei` finds and the pages of `argv[]`: the result, `none` for -1,
    and the calls to the file system in their order. -/
def kexec (p : Proc) (path : List UInt8) (ip : Option Inode) (argv : List ℕ) :
    K (Option ExecResult × List FsCall) :=
  match ip with
  | none => .ret (none, [.beginOp, .namei false, .endOp])
  | some ip =>
    let opened : List FsCall := [.beginOp, .namei true, .ilock]
    let elf := ip.read 0 64
    if elf.length ≠ 64 then .ret (none, opened ++ badCalls true)
    else if field elf 0 4 ≠ 0x464C457F then .ret (none, opened ++ badCalls true)
    else do
      match ← procPagetable L p.trapframe with
      | none => .ret (none, opened ++ badCalls true)
      | some pagetable => do
        match ← loadSegments L pagetable ip (field elf 56 2) (field elf 32 8 % 2 ^ 32) 0 with
        | (sz, false) => do
          let r ← execBad L pagetable sz
          .ret (r, opened ++ badCalls true)
        | (sz, true) => do
          let r ← execStack L p path argv (field elf 24 8) pagetable sz
          .ret (r, opened ++ [.iunlockput, .endOp] ++ if r.isNone then badCalls false else [])

/-! ## `sys_exec` -/

/-- `fetchaddr`. -/
def fetchaddr (p : Proc) (addr : ℕ) : K (Option ℕ) :=
  if p.sz ≤ addr ∨ p.sz < addr + 8 then .ret none
  else do
    match ← copyin L ⟨p.sz, p.pagetable⟩ p.pagetable addr 8 with
    | none => .ret none
    | some l => .ret (some (field l 0 8))

/-- The loop of `sys_exec`: the pages of `argv[]`, and `false` where it goes to `bad`. -/
def fetchArgv (p : Proc) (uargv : ℕ) : ℕ → ℕ → List ℕ → K (List ℕ × Bool)
  | 0, _, argv => .ret (argv, false)
  | n + 1, i, argv => do
    match ← fetchaddr L p ((uargv + 8 * i) % 2 ^ 64) with
    | none => .ret (argv, false)
    | some uarg =>
      if uarg = 0 then .ret (argv, true)
      else do
        match ← kalloc with
        | none => .ret (argv, false)
        | some arg => do
          match ← copyinstr p.pagetable uarg pgSize with
          | none => .ret (argv ++ [arg], false)
          | some s => do
            memmove arg 0 (s ++ [0])
            fetchArgv p uargv n (i + 1) (argv ++ [arg])

def freeArgs : List ℕ → K Unit
  | [] => .ret ()
  | arg :: argv => do
    kfree L arg
    freeArgs argv

def sysExec (p : Proc) (upath uargv : ℕ) (namei : List UInt8 → Option Inode) :
    K (Option ExecResult × List FsCall) := do
  match ← copyinstr p.pagetable upath maxPath with
  | none => .ret (none, [])
  | some path => do
    match ← fetchArgv L p uargv maxArg 0 [] with
    | (argv, false) => do
      freeArgs L argv
      .ret (none, [])
    | (argv, true) => do
      let r ← kexec L p path (namei path) argv
      freeArgs L argv
      .ret r

end Xv6.Vm
