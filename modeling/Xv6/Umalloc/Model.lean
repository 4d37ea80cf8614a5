/-
  `user/umalloc.c`: the allocator of user programs, after Kernighan and Ritchie.

  Addresses are counted in bytes. The memory shows at each address the header that lies there; a
  header takes 16 bytes, and sizes are counted in headers. What `sbrk` answers is given to `malloc`
  as a list. The loops run on fuel; a call that the process does not survive has no result either.
-/
import Xv6.Lib.Circular
import Xv6.Param

namespace Xv6.Umalloc

open Lib Function

/-- A header and `size - 1` more units after it. -/
structure Block where
  addr : ℕ
  size : ℕ
  deriving DecidableEq, Repr

namespace Block

/-- The address after the block. -/
def stop (b : Block) : ℕ := b.addr + 16 * b.size

/-- The addresses of the block's units. -/
def units (b : Block) : List ℕ := (List.range b.size).map fun i => b.addr + 16 * i

def Disjoint (a b : Block) : Prop := a.stop ≤ b.addr ∨ b.stop ≤ a.addr

end Block

/-- `Header`; `size` is a `uint`. -/
structure Header where
  ptr : ℕ
  size : ℕ
  deriving DecidableEq, Repr

/-- `base` is the address of the static header of that name, and `freep` is 0 before the first
    `malloc`. -/
structure Heap where
  base : ℕ
  mem : ℕ → Header
  freep : ℕ

namespace Heap

def set (h : Heap) (a : ℕ) (x : Header) : Heap := { h with mem := update h.mem a x }

/-! ## `free` -/

/-- The loop of `free` ends at `p`: `bp` lies between `p` and its successor, or `p` is where the
    list wraps and `bp` lies at one of the ends. -/
def Stops (h : Heap) (bp p : ℕ) : Prop :=
  (p < bp ∧ bp < (h.mem p).ptr) ∨ ((h.mem p).ptr ≤ p ∧ (p < bp ∨ bp < (h.mem p).ptr))

instance (h : Heap) (bp : ℕ) : DecidablePred (h.Stops bp) := fun _ =>
  inferInstanceAs (Decidable (_ ∨ _))

/-- `bp` takes over the successor of `p`, or its place before it. -/
def joinNext (h : Heap) (bp p : ℕ) : Heap :=
  let next := (h.mem p).ptr
  if bp + 16 * (h.mem bp).size = next then
    h.set bp ⟨(h.mem next).ptr, ((h.mem bp).size + (h.mem next).size) % 2 ^ 32⟩
  else h.set bp ⟨next, (h.mem bp).size⟩

/-- `p` takes over `bp`, or points to it. -/
def joinPrev (h : Heap) (bp p : ℕ) : Heap :=
  if p + 16 * (h.mem p).size = bp then
    h.set p ⟨(h.mem bp).ptr, ((h.mem p).size + (h.mem bp).size) % 2 ^ 32⟩
  else h.set p ⟨bp, (h.mem p).size⟩

def free (fuel : ℕ) (h : Heap) (ap : ℕ) : Option Heap :=
  let bp := ap - 16
  (seek (fun p => (h.mem p).ptr) (h.Stops bp) fuel h.freep).map fun p =>
    { (h.joinNext bp p).joinPrev bp p with freep := p }

/-! ## `malloc` -/

/-- `nunits`, computed with 64 bits. -/
def nunits (nbytes : ℕ) : ℕ := (nbytes + 15) / 16 + 1

/-- The units that `morecore` asks for. -/
def coreUnits (nu : ℕ) : ℕ := if nu < 4096 then 4096 else nu

/-- An answer of `sbrk`: the old size of the process, which is the address of what it adds, and
    the new one. -/
structure Break where
  addr : ℕ
  size : ℕ
  deriving DecidableEq, Repr

/-- The fields of a header at the address are in the pages of the process. -/
def Break.Backed (x : Break) : Prop := x.addr + 12 ≤ pgRoundUp x.size

instance (x : Break) : Decidable x.Backed := inferInstanceAs (Decidable (_ ≤ _))

/-- `morecore` when `sbrk` answers `x`. The store to the header faults where the process has no
    page, and `usertrap` kills the process: the address is not below its size. -/
def morecore (fuel : ℕ) (h : Heap) (nu : ℕ) (x : Break) : Option Heap :=
  if x.Backed then (h.set x.addr ⟨(h.mem x.addr).ptr, coreUnits nu⟩).free fuel (x.addr + 16)
  else none

/-- The block `p`, which is large enough, is taken out of the list, or its tail is. -/
def carve (h : Heap) (prevp p nunits : ℕ) : Heap × ℕ :=
  if (h.mem p).size = nunits then
    ({ h.set prevp ⟨(h.mem p).ptr, (h.mem prevp).size⟩ with freep := prevp }, p)
  else
    let rest := (h.mem p).size - nunits
    let h := h.set p ⟨(h.mem p).ptr, rest⟩
    let p := p + 16 * rest
    ({ h.set p ⟨(h.mem p).ptr, nunits⟩ with freep := prevp }, p)

/-- The loop of `malloc`: the result, the heap, and the regions that `sbrk` has given. -/
def mallocLoop (nunits : ℕ) : ℕ → Heap → ℕ → ℕ → List (Option Break) → List Block →
    Option (Option ℕ × Heap × List Block)
  | 0, _, _, _, _, _ => none
  | fuel + 1, h, prevp, p, answers, new =>
    if nunits ≤ (h.mem p).size then
      some (some ((h.carve prevp p nunits).2 + 16), (h.carve prevp p nunits).1, new)
    else if p = h.freep then
      match answers with
      | some x :: answers =>
        match h.morecore fuel nunits x with
        | none => none
        | some h =>
          mallocLoop nunits fuel h h.freep (h.mem h.freep).ptr answers
            (⟨x.addr, coreUnits nunits⟩ :: new)
      | _ => some (none, h, new)
    else mallocLoop nunits fuel h p (h.mem p).ptr answers new

/-- The first `malloc` makes `base` a list of one. -/
def start (h : Heap) : Heap :=
  if h.freep = 0 then { h.set h.base ⟨h.base, 0⟩ with freep := h.base } else h

def malloc (fuel : ℕ) (h : Heap) (nbytes : ℕ) (answers : List (Option Break)) :
    Option (Option ℕ × Heap × List Block) :=
  mallocLoop (nunits nbytes) fuel h.start h.start.freep (h.start.mem h.start.freep).ptr answers []

end Heap

/-! ## Runs -/

/-- The heap of a program, with the blocks that it has been given and not freed, and the regions
    that `sbrk` has given. -/
structure Sys where
  heap : Heap
  live : List Block
  regions : List Block

inductive Call where
  | malloc (nbytes : ℕ) (answers : List (Option Heap.Break))
  | free (b : Block)

/-- `sbrk` gets a positive `int` and answers with that much memory above what it gave before; only
    live pointers are freed. -/
def Call.Legal (s : Sys) : Call → Prop
  | .malloc nbytes answers => 16 * Heap.coreUnits (Heap.nunits nbytes) < 2 ^ 31 ∧
    ∀ o ∈ answers, ∀ x ∈ o, s.heap.base + 16 ≤ x.addr ∧ (∀ r ∈ s.regions, r.stop ≤ x.addr) ∧
      x.size = x.addr + 16 * Heap.coreUnits (Heap.nunits nbytes)
  | .free b => b ∈ s.live

instance (s : Sys) : DecidablePred (Call.Legal s)
  | .malloc _ _ => inferInstanceAs (Decidable (_ ∧ _))
  | .free b => inferInstanceAs (Decidable (b ∈ s.live))

/-- What `malloc` returns is live from then on. -/
def Sys.afterMalloc (s : Sys) (nbytes : ℕ) (r : Option ℕ × Heap × List Block) : Sys where
  heap := r.2.1
  live := match r.1 with
    | none => s.live
    | some ap => ⟨ap - 16, Heap.nunits nbytes⟩ :: s.live
  regions := r.2.2 ++ s.regions

def Sys.call (fuel : ℕ) (s : Sys) : Call → Option Sys
  | .malloc nbytes answers => (s.heap.malloc fuel nbytes answers).map (s.afterMalloc nbytes)
  | .free b =>
    (s.heap.free fuel (b.addr + 16)).map fun h => { s with heap := h, live := s.live.erase b }

/-- A call, or stores of the program to the blocks that it was given. -/
inductive Step : Sys → Sys → Prop
  | call {s s' : Sys} (c : Call) (fuel : ℕ) (hl : c.Legal s) (hc : s.call fuel c = some s') :
      Step s s'
  | store {s : Sys} (mem : ℕ → Header)
      (hm : ∀ a, (∀ b ∈ s.live, a ≤ b.addr ∨ b.stop ≤ a) → mem a = s.heap.mem a) :
      Step s { s with heap := { s.heap with mem := mem } }

/-- Before the first call. -/
def Sys.init (base : ℕ) (mem : ℕ → Header) : Sys := ⟨⟨base, mem, 0⟩, [], []⟩

/-- The memory obtained from `sbrk`, in units. -/
def Sys.total (s : Sys) : ℕ := (s.regions.map Block.size).sum

end Xv6.Umalloc
