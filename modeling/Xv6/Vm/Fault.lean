/-
  Access to user memory: `copyout`, `copyin`, `copyinstr`, `vmfault` and `cow_handler` of
  `kernel/vm.c`, the page-fault branches of `usertrap` in `kernel/trap.c`, and the loads and
  stores of user mode that lead there.

  The kernel buffer of a copy is a list of bytes. What `usertrap` prints and the counter it
  keeps for its messages are left out.
-/
import Xv6.Vm.Table

namespace Xv6.Vm

open Lib

variable (L : Layout)

/-- What `vmfault` reads of the current process. -/
structure Cur where
  sz : ℕ
  pagetable : ℕ

/-! ## Faults -/

def ismapped (pagetable va : ℕ) : K Bool := do
  match ← walk pagetable va false with
  | none => .ret false
  | some (t, i) => do
    let pte ← readPte t i
    .ret pte.v

/-- The new page. It is looked for in `pagetable` and mapped in the process's own table. -/
def vmfault (p : Cur) (pagetable va : ℕ) : K (Option ℕ) :=
  if p.sz ≤ va then .ret none
  else do
    if ← ismapped pagetable (pgRoundDown va) then .ret none
    else
      match ← kalloc with
      | none => .ret none
      | some mem => do
        memset mem 0
        if ← mappages p.pagetable (pgRoundDown va) pgSize mem { w := true, u := true, r := true }
        then .ret (some mem)
        else do
          kfree L mem
          .ret none

/-- `true` for 0. The page is entered in the table before the old one is given back. -/
def cowHandler (pagetable va : ℕ) : K Bool :=
  if maxVa ≤ pgRoundDown va then .ret false
  else do
    match ← walk pagetable (pgRoundDown va) false with
    | none => .ret false
    | some (t, i) => do
      let pte ← readPte t i
      if pte.v = false ∨ pte.cow = false then .ret false
      else
        match ← kalloc with
        | none => .ret false
        | some mem => do
          let old ← readBytes pte.ppn
          .write mem (.bytes old) (.ret ())
          setPte t i { pte with w := true, cow := false, ppn := mem }
          kfree L pte.ppn
          .ret true

/-- The two page-fault branches of `usertrap`, for `scause` 15 (a store) or 13 (a load). The
    result is `false` where `setkilled` is called. -/
def pageFault (p : Cur) (store : Bool) (va : ℕ) : K Bool :=
  if 0x80000000 ≤ va then .ret false
  else if p.sz ≤ va ∨ pgRoundDown va = 0 then .ret false
  else if store then do
    if ← cowHandler L p.pagetable va then .ret true
    else do
      let r ← vmfault L p p.pagetable va
      .ret r.isSome
  else do
    let r ← vmfault L p p.pagetable va
    .ret r.isSome

/-! ## User mode -/

/-- The leaf entry that the hardware finds for `va`, if there is one. -/
def translate (pagetable va : ℕ) : K (Option Pte) :=
  if maxVa ≤ va then .ret none
  else do
    match ← walk pagetable va false with
    | none => .ret none
    | some (t, i) => do
      let pte ← readPte t i
      if pte.v ∧ pte.u then .ret (some pte) else .ret none

/-- How an attempt at a user instruction ends. After `fault` it is tried again. -/
inductive Attempt (α : Type) where
  | done (a : α)
  | fault
  | killed
  deriving DecidableEq, Repr

/-- The end of an attempt that traps. -/
def trap {α : Type} (p : Cur) (store : Bool) (va : ℕ) : K (Attempt α) := do
  if ← pageFault L p store va then .ret .fault else .ret .killed

def userLoad (p : Cur) (va : ℕ) : K (Attempt UInt8) := do
  match ← translate p.pagetable va with
  | none => trap L p false va
  | some pte =>
    if pte.r then do
      let f ← readBytes pte.ppn
      .ret (.done (f (va % pgSize)))
    else trap L p false va

def userStore (p : Cur) (va : ℕ) (c : UInt8) : K (Attempt Unit) := do
  match ← translate p.pagetable va with
  | none => trap L p true va
  | some pte =>
    if pte.w then do
      memmove pte.ppn (va % pgSize) [c]
      .ret (.done ())
    else trap L p true va

/-! ## Copies -/

/-- `walkaddr`, then `vmfault` where it finds nothing. -/
def userPage (p : Cur) (pagetable va0 : ℕ) : K (Option ℕ) := do
  match ← walkaddr pagetable va0 with
  | some pa0 => .ret (some pa0)
  | none => vmfault L p pagetable va0

/-- The bytes of a copy at `va` that lie in the first page. -/
def chunk (va len : ℕ) : ℕ := min (pgSize - va % pgSize) len

/-- One round of `copyout`'s loop. -/
def copyoutPage (p : Cur) (pagetable dstva : ℕ) (src : List UInt8) : K Bool :=
  if maxVa ≤ pgRoundDown dstva then .ret false
  else do
    match ← userPage L p pagetable (pgRoundDown dstva) with
    | none => .ret false
    | some pa0 => do
      match ← walk pagetable (pgRoundDown dstva) false with
      | none => .fail .null
      | some (t, i) => do
        let pte ← readPte t i
        if pte.w = false then .ret false
        else do
          memmove pa0 (dstva % pgSize) src
          .ret true

/-- The loop of `copyout`; every round copies at least one byte. -/
def copyoutLoop (p : Cur) (pagetable : ℕ) : ℕ → ℕ → List UInt8 → K Bool
  | 0, _, _ => .ret true
  | fuel + 1, dstva, src =>
    if src = [] then .ret true
    else do
      if ← copyoutPage L p pagetable dstva (src.take (chunk dstva src.length)) then
        copyoutLoop p pagetable fuel (pgRoundDown dstva + pgSize)
          (src.drop (chunk dstva src.length))
      else .ret false

/-- `true` for 0. -/
def copyout (p : Cur) (pagetable dstva : ℕ) (src : List UInt8) : K Bool :=
  copyoutLoop L p pagetable src.length dstva src

def copyinLoop (p : Cur) (pagetable : ℕ) : ℕ → ℕ → ℕ → K (Option (List UInt8))
  | 0, _, _ => .ret (some [])
  | fuel + 1, srcva, len =>
    if len = 0 then .ret (some [])
    else do
      match ← userPage L p pagetable (pgRoundDown srcva) with
      | none => .ret none
      | some pa0 => do
        let f ← readBytes pa0
        match ← copyinLoop p pagetable fuel (pgRoundDown srcva + pgSize)
          (len - chunk srcva len) with
        | none => .ret none
        | some rest => .ret (some (slice f (srcva % pgSize) (chunk srcva len) ++ rest))

/-- The bytes copied, or `none` for -1. -/
def copyin (p : Cur) (pagetable srcva len : ℕ) : K (Option (List UInt8)) :=
  copyinLoop L p pagetable len srcva len

def copyinstrLoop (pagetable : ℕ) : ℕ → ℕ → ℕ → K (Option (List UInt8))
  | 0, _, _ => .ret none
  | fuel + 1, srcva, max =>
    if max = 0 then .ret none
    else do
      match ← walkaddr pagetable (pgRoundDown srcva) with
      | none => .ret none
      | some pa0 => do
        let f ← readBytes pa0
        let s := slice f (srcva % pgSize) (chunk srcva max)
        if 0 ∈ s then .ret (some (s.takeWhile (· ≠ 0)))
        else
          match ← copyinstrLoop pagetable fuel (pgRoundDown srcva + pgSize)
            (max - chunk srcva max) with
          | none => .ret none
          | some rest => .ret (some (s ++ rest))

/-- The string without its NUL, or `none` for -1. There is no `vmfault` here. -/
def copyinstr (pagetable srcva max : ℕ) : K (Option (List UInt8)) :=
  copyinstrLoop pagetable max srcva max

end Xv6.Vm
