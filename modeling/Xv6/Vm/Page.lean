/-
  Physical pages and their reference counts: `kernel/kalloc.c`.

  A page is its number, the physical address divided by `pgSize`; a null pointer is `none`.
  The contents of a page are either bytes or 512 page-table entries. The source makes no such
  difference: a function that finds the other kind here stops with `wild`, and that this never
  happens is proved, not assumed. Of an entry we keep the flags that the kernel or the
  hardware's permission check reads.

  A program of type `K` is a sequence of the primitives of `Prog`: the critical sections of
  `kmem.lock` and `kref.lock`, and reads and writes of one page.
-/
import Xv6.Param
import Xv6.Lib.Prog

namespace Xv6.Vm

open Lib Function

/-- `PTE_R`, `PTE_W`, `PTE_X`, `PTE_U` and `PTE_COW`. -/
structure Flags where
  r : Bool := false
  w : Bool := false
  x : Bool := false
  u : Bool := false
  cow : Bool := false
  deriving DecidableEq, Repr

/-- A page-table entry: `PTE_FLAGS` without `PTE_V`, `PTE_V`, and the page of `PTE2PA`. -/
structure Pte extends Flags where
  v : Bool := false
  ppn : ℕ := 0
  deriving DecidableEq, Repr

/-- The entry 0. -/
def Pte.zero : Pte := {}

abbrev Table := Fin 512 → Pte

/-- The contents of a page. -/
inductive PageData where
  | bytes (f : ℕ → UInt8)
  | table (t : Table)

/-- The entry maps page `p` for user mode. -/
def Pte.maps (e : Pte) (p : ℕ) : Bool := e.v && e.u && e.ppn == p

/-- The calls of `panic`; `ustack` is a store past the end of `kexec`'s array, `null` a null pointer
    that the kernel follows, `wild` a page whose contents are of the other kind. -/
inductive Panic where
  | kfree
  | walk
  | mappagesVa
  | mappagesSizeAligned
  | mappagesSize
  | mappagesRemap
  | uvmunmapNotAligned
  | uvmunmapNotALeaf
  | freewalkLeaf
  | uvmclear
  | uvmmap
  | kvmmap
  | loadseg
  | virtioKalloc
  | ustack
  | null
  | wild
  deriving DecidableEq, Repr

/-- The machine and the kernel in it: the pages of `etext`, of the trampoline code, the first one
    at or above `end` and that of `PHYSTOP`, and the length of the PLIC's registers. The last two
    are constants of the source; a smaller machine differs in nothing else. -/
structure Layout where
  etext : ℕ
  trampoline : ℕ
  first : ℕ
  top : ℕ
  plicLen : ℕ
  text : kernBase / pgSize < etext
  code : kernBase / pgSize ≤ trampoline ∧ trampoline < etext
  data : etext ≤ first
  ram : first < top ∧ top ≤ physTop / pgSize
  devices : 0 < plicLen ∧ plicLen % pgSize = 0 ∧ plicLen ≤ plicSize

namespace Layout

/-- The pages of `[end, PHYSTOP)`. -/
def managed (L : Layout) : Finset ℕ := Finset.Ico L.first L.top

theorem mem_managed {L : Layout} {p : ℕ} : p ∈ L.managed ↔ L.first ≤ p ∧ p < L.top :=
  Finset.mem_Ico

end Layout

abbrev K := Prog PageData Panic

/-! ## `kalloc.c` -/

/-- `memset(p, c, PGSIZE)`. -/
def memset (p : ℕ) (c : UInt8) : K Unit :=
  .write p (.bytes fun _ => c) (.ret ())

def kalloc : K (Option ℕ) :=
  .pop fun
    | none => .ret none
    | some p => do
      memset p 5
      .init p (.ret (some p))

def kfree (L : Layout) (p : ℕ) : K Unit :=
  if p < L.first ∨ L.top ≤ p then .fail .kfree
  else
    .drop p fun count =>
      if 0 < count then .ret ()
      else do
        memset p 1
        .push p (.ret ())

def krefIncr (L : Layout) (p : ℕ) : K Unit :=
  if L.top ≤ p ∨ p < L.first then .ret ()
  else .grab p (.ret ())

/-- `freerange(end, PHYSTOP)`: each page gets the count 1 and is freed. -/
def freerange (L : Layout) : K Unit :=
  .times (fun p => .init p (kfree L p)) (L.top - L.first) L.first

/-! ## Contents -/

def readPte (p : ℕ) (i : Fin 512) : K Pte :=
  .read p fun
    | .table t => .ret (t i)
    | .bytes _ => .fail .wild

/-- `*pte = e` for the entry `i` of the table in page `p`. -/
def setPte (p : ℕ) (i : Fin 512) (e : Pte) : K Unit :=
  .read p fun
    | .table t => .write p (.table (update t i e)) (.ret ())
    | .bytes _ => .fail .wild

/-- `memset(p, 0, PGSIZE)` for a page that becomes a page table. -/
def clearTable (p : ℕ) : K Unit :=
  .write p (.table fun _ => .zero) (.ret ())

def readBytes (p : ℕ) : K (ℕ → UInt8) :=
  .read p fun
    | .bytes f => .ret f
    | .table _ => .fail .wild

/-- The bytes `f` with `src` from offset `off` on. -/
def patch (f : ℕ → UInt8) (off : ℕ) (src : List UInt8) : ℕ → UInt8 :=
  fun i => if off ≤ i ∧ i < off + src.length then src.getD (i - off) 0 else f i

/-- `memmove(p + off, src, n)`, with the `n` bytes as a list. -/
def memmove (p off : ℕ) (src : List UInt8) : K Unit := do
  let f ← readBytes p
  .write p (.bytes (patch f off src)) (.ret ())

/-- `n` bytes from offset `off` of a page's contents. -/
def slice (f : ℕ → UInt8) (off n : ℕ) : List UInt8 :=
  (List.range n).map fun i => f (off + i)

end Xv6.Vm
