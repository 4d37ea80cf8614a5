/-
  The constants of `kernel/param.h`, `kernel/fs.h`, `kernel/memlayout.h` and `kernel/riscv.h`
  that the modelled functions read. Addresses are natural numbers; a 64-bit quantity that can
  wrap is reduced with `u64` where the source computes it.
-/
import Mathlib

namespace Xv6

/-! ## `param.h` -/

/-- `NPROC`: slots of the process table. -/
def nproc : Nat := 64

/-- `NFILE`: open files of the system. -/
def nfile : Nat := 100

/-- `NOFILE`: open files per process. -/
def nofile : Nat := 16

/-- `MAXARG`: exec arguments. -/
def maxArg : Nat := 32

/-- `MAXOPBLOCKS`: distinct blocks one file-system operation may log. -/
def maxOpBlocks : Nat := 10

/-- `LOGBLOCKS`: data blocks of the on-disk log. -/
def logBlocks : Nat := maxOpBlocks * 3

/-- `NBUF`: buffers of the block cache. -/
def nbuf : Nat := maxOpBlocks * 3

/-- `ROOTDEV`: the device of the root file system. -/
def rootDev : Nat := 1

/-- `MAXPATH`: longest path. -/
def maxPath : Nat := 128

/-- `USERSTACK`: pages of the user stack. -/
def userStack : Nat := 1

/-! ## `riscv.h` and `memlayout.h` -/

/-- `PGSIZE`. -/
def pgSize : Nat := 4096

/-- `MAXVA`: one beyond the highest virtual address that the kernel uses. -/
def maxVa : Nat := 2 ^ 38

/-- `PGROUNDUP`. -/
def pgRoundUp (a : Nat) : Nat := (a + pgSize - 1) / pgSize * pgSize

/-- `PGROUNDDOWN`. -/
def pgRoundDown (a : Nat) : Nat := a / pgSize * pgSize

/-- The pages that the first `sz` bytes lie in. -/
def pageCount (sz : Nat) : Nat := pgRoundUp sz / pgSize

def uart0 : Nat := 0x10000000

def virtio0 : Nat := 0x10001000

def plic : Nat := 0x0c000000

/-- The length of the PLIC's registers, as the kernel maps them. -/
def plicSize : Nat := 0x4000000

def kernBase : Nat := 0x80000000

def physTop : Nat := kernBase + 128 * 1024 * 1024

def trampoline : Nat := maxVa - pgSize

def trapframeVa : Nat := trampoline - pgSize

/-- `KSTACK(p)`: where the kernel stack of slot `i` is mapped. -/
def kstackVa (i : Nat) : Nat := trampoline - (i + 1) * 2 * pgSize

/-! ## Rounding -/

theorem pgRoundUp_eq (a : Nat) : pgRoundUp a = pageCount a * pgSize := by
  unfold pageCount pgRoundUp
  rw [Nat.mul_div_cancel _ (by decide)]

theorem pgRoundUp_mod (a : Nat) : pgRoundUp a % pgSize = 0 := Nat.mul_mod_left _ _

theorem lt_pageCount {v sz : Nat} : v < pageCount sz ↔ v * pgSize < sz := by
  unfold pageCount pgRoundUp pgSize
  omega

theorem pageCount_mono {a c : Nat} (h : a ≤ c) : pageCount a ≤ pageCount c := by
  unfold pageCount pgRoundUp pgSize
  omega

theorem pageCount_mul (n : Nat) : pageCount (n * pgSize) = n := by
  unfold pageCount pgRoundUp pgSize
  omega

theorem pgRoundDown_mod (a : Nat) : pgRoundDown a % pgSize = 0 := Nat.mul_mod_left _ _

theorem pgRoundDown_div (a : Nat) : pgRoundDown a / pgSize = a / pgSize :=
  Nat.mul_div_cancel _ (by decide)

theorem pgRoundDown_le (a : Nat) : pgRoundDown a ≤ a := Nat.div_mul_le_self a pgSize

end Xv6
