/-
  Page tables: the functions of `kernel/vm.c` that build, read and free them.

  Virtual addresses and sizes are in bytes. `MAXVA` is far below 2^64 and every function stops
  at it, so no address computed here wraps around.
-/
import Xv6.Vm.Page

namespace Xv6.Vm

open Lib

variable (L : Layout)

/-- The entry with the low 9 bits of `n` as its number. -/
def index (n : ℕ) : Fin 512 := Fin.ofNat 512 n

theorem index_val (n : ℕ) : (index n : ℕ) = n % 512 := rfl

/-- `PX(level, va)`. -/
def px (level va : ℕ) : Fin 512 := index (va >>> (12 + 9 * level))

/-- The loop of `walk`, with `level` levels to go. -/
def walkFrom (va : ℕ) (alloc : Bool) : ℕ → ℕ → K (Option (ℕ × Fin 512))
  | 0, p => .ret (some (p, px 0 va))
  | level + 1, p => do
    let pte ← readPte p (px (level + 1) va)
    if pte.v then walkFrom va alloc level pte.ppn
    else if alloc = false then .ret none
    else
      match ← kalloc with
      | none => .ret none
      | some q => do
        clearTable q
        setPte p (px (level + 1) va) { v := true, ppn := q }
        walkFrom va alloc level q

/-- The table and the index of the entry for `va`. -/
def walk (pagetable va : ℕ) (alloc : Bool) : K (Option (ℕ × Fin 512)) :=
  if maxVa ≤ va then .fail .walk else walkFrom va alloc 2 pagetable

def walkaddr (pagetable va : ℕ) : K (Option ℕ) :=
  if maxVa ≤ va then .ret none
  else do
    match ← walk pagetable va false with
    | none => .ret none
    | some (t, i) => do
      let pte ← readPte t i
      if pte.v = false ∨ pte.u = false then .ret none else .ret (some pte.ppn)

/-- The loop of `mappages`, `n` pages. The result is `false` for -1. -/
def mapLoop (pagetable : ℕ) (perm : Flags) : ℕ → ℕ → ℕ → K Bool
  | 0, _, _ => .ret true
  | n + 1, a, pa => do
    match ← walk pagetable a true with
    | none => .ret false
    | some (t, i) => do
      let pte ← readPte t i
      if pte.v then .fail .mappagesRemap
      else do
        setPte t i { perm with v := true, ppn := pa }
        mapLoop pagetable perm n (a + pgSize) (pa + 1)

def mappages (pagetable va size pa : ℕ) (perm : Flags) : K Bool :=
  if va % pgSize ≠ 0 then .fail .mappagesVa
  else if size % pgSize ≠ 0 then .fail .mappagesSizeAligned
  else if size = 0 then .fail .mappagesSize
  else mapLoop pagetable perm (size / pgSize) va pa

def uvmcreate : K (Option ℕ) := do
  match ← kalloc with
  | none => .ret none
  | some pagetable => do
    clearTable pagetable
    .ret (some pagetable)

/-- The body of `uvmunmap`'s loop. The page is freed before the entry is cleared. -/
def unmapPage (pagetable : ℕ) (doFree : Bool) (a : ℕ) : K Unit := do
  match ← walk pagetable a false with
  | none => .ret ()
  | some (t, i) => do
    let pte ← readPte t i
    if pte.v = false then setPte t i .zero
    else if pte.toFlags = {} then .fail .uvmunmapNotALeaf
    else if doFree then do
      kfree L pte.ppn
      setPte t i .zero
    else setPte t i .zero

def uvmunmap (pagetable va npages : ℕ) (doFree : Bool) : K Unit :=
  if va % pgSize ≠ 0 then .fail .uvmunmapNotAligned
  else .times (fun i => unmapPage L pagetable doFree (va + i * pgSize)) npages 0

def uvmdealloc (pagetable oldsz newsz : ℕ) : K ℕ :=
  if oldsz ≤ newsz then .ret oldsz
  else if pgRoundUp newsz < pgRoundUp oldsz then do
    uvmunmap L pagetable (pgRoundUp newsz) ((pgRoundUp oldsz - pgRoundUp newsz) / pgSize) true
    .ret newsz
  else .ret newsz

/-- The loop of `uvmalloc`, `n` pages from `a`. -/
def allocLoop (pagetable oldsz : ℕ) (xperm : Flags) : ℕ → ℕ → K Bool
  | 0, _ => .ret true
  | n + 1, a => do
    match ← kalloc with
    | none => do
      let _ ← uvmdealloc L pagetable a oldsz
      .ret false
    | some mem => do
      memset mem 0
      if ← mappages pagetable a pgSize mem { xperm with r := true, u := true } then
        allocLoop pagetable oldsz xperm n (a + pgSize)
      else do
        kfree L mem
        let _ ← uvmdealloc L pagetable a oldsz
        .ret false

/-- The new size, or 0. -/
def uvmalloc (pagetable oldsz newsz : ℕ) (xperm : Flags) : K ℕ :=
  if newsz < oldsz then .ret oldsz
  else do
    let oldsz := pgRoundUp oldsz
    if ← allocLoop L pagetable oldsz xperm ((newsz + pgSize - 1 - oldsz) / pgSize) oldsz then
      .ret newsz
    else .ret 0

/-- `freewalk` of a table with `level` levels below it, one of them at the leaves. A page table
    has three levels; more nesting than that is followed nowhere. -/
def freewalk : ℕ → ℕ → K Unit
  | 0, _ => .fail .wild
  | level + 1, pagetable => do
    .times (fun i => do
      let pte ← readPte pagetable (index i)
      if pte.v then
        if pte.r = false ∧ pte.w = false ∧ pte.x = false then do
          freewalk level pte.ppn
          setPte pagetable (index i) .zero
        else .fail .freewalkLeaf
      else .ret ()) 512 0
    kfree L pagetable

def uvmfree (pagetable sz : ℕ) : K Unit :=
  if 0 < sz then do
    uvmunmap L pagetable 0 (pgRoundUp sz / pgSize) true
    freewalk L 3 pagetable
  else freewalk L 3 pagetable

/-- What `uvmcopy` makes of a parent's entry: one that can be written becomes copy-on-write. -/
def Pte.share (e : Pte) : Pte :=
  if e.w ∨ e.cow then { e with w := false, cow := true } else e

def sharePte (t : ℕ) (k : Fin 512) (pte : Pte) : K Unit :=
  if pte.w ∨ pte.cow then setPte t k pte.share else .ret ()

/-- The body of `uvmcopy`'s loop for page `i`; `false` where it goes to `err`. -/
def copyPage (old new i : ℕ) : K Bool := do
  match ← walk old (i * pgSize) false with
  | none => .ret true
  | some (t, k) => do
    let pte ← readPte t k
    if pte.v = false then .ret true
    else do
      sharePte t k pte
      if ← mappages new (i * pgSize) pgSize pte.ppn pte.share.toFlags then do
        krefIncr L pte.ppn
        .ret true
      else .ret false

/-- The loop of `uvmcopy`, `n` pages from page `i`. -/
def copyLoop (old new : ℕ) : ℕ → ℕ → K Bool
  | 0, _ => .ret true
  | n + 1, i => do
    if ← copyPage L old new i then copyLoop old new n (i + 1)
    else do
      uvmunmap L new 0 i true
      .ret false

def uvmcopy (old new sz : ℕ) : K Bool :=
  copyLoop L old new (pgRoundUp sz / pgSize) 0

def uvmclear (pagetable va : ℕ) : K Unit := do
  match ← walk pagetable va false with
  | none => .fail .uvmclear
  | some (t, i) => do
    let pte ← readPte t i
    setPte t i { pte with u := false }

end Xv6.Vm
