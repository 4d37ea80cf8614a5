/-
  The format of the disk: where `kernel/fs.h` puts the super block, the inodes and the free map, and
  how the kernel reads them.

  Numbers are stored with the low byte first. `xshort` and `xint` of `mkfs.c` make them so on any
  host; the kernel runs on a machine that reads them so. A `struct dinode` is 64 bytes: four shorts,
  the size, and thirteen addresses.
-/
import Xv6.Fs.Own

namespace Xv6.Mkfs

open Fs Lib

/-- The blocks of a disk image. -/
abbrev Image := ℕ → Block

def fsMagic : ℕ := 0x10203040

/-- Inodes per block. -/
def ipb : ℕ := 16

/-- Bits of the free map per block. -/
def bpb : ℕ := 8192

/-- `sizeof(struct dinode)` -/
def dinodeSize : ℕ := 64

/-! ## The super block -/

@[ext]
structure SuperBlock where
  magic : ℕ
  size : ℕ
  nblocks : ℕ
  ninodes : ℕ
  nlog : ℕ
  logstart : ℕ
  inodestart : ℕ
  bmapstart : ℕ

namespace SuperBlock

/-- `readsb`: `memmove(sb, bp->data, sizeof(*sb))` -/
def read (b : Block) : SuperBlock :=
  ⟨getUint b 0, getUint b 1, getUint b 2, getUint b 3, getUint b 4, getUint b 5, getUint b 6,
    getUint b 7⟩

/-- `memset(buf, 0, sizeof(buf)); memmove(buf, &sb, sizeof(sb))` -/
def block (sb : SuperBlock) : Block :=
  putUint (putUint (putUint (putUint (putUint (putUint (putUint (putUint (fun _ => 0)
    0 sb.magic) 1 sb.size) 2 sb.nblocks) 3 sb.ninodes) 4 sb.nlog) 5 sb.logstart) 6 sb.inodestart)
    7 sb.bmapstart

/-- Every field is a `uint`. -/
def Fits (sb : SuperBlock) : Prop :=
  sb.magic < 2 ^ 32 ∧ sb.size < 2 ^ 32 ∧ sb.nblocks < 2 ^ 32 ∧ sb.ninodes < 2 ^ 32 ∧
  sb.nlog < 2 ^ 32 ∧
    sb.logstart < 2 ^ 32 ∧ sb.inodestart < 2 ^ 32 ∧ sb.bmapstart < 2 ^ 32

theorem read_block {sb : SuperBlock} (h : sb.Fits) : read sb.block = sb := by
  obtain ⟨h0, h1, h2, h3, h4, h5, h6, h7⟩ := h
  unfold read block
  ext <;> simp [getUint_putUint_ne, getUint_putUint h0, getUint_putUint h1, getUint_putUint h2,
    getUint_putUint h3, getUint_putUint h4, getUint_putUint h5, getUint_putUint h6,
    getUint_putUint h7]

/-- `IBLOCK(i, sb)` -/
def iblock (sb : SuperBlock) (i : ℕ) : ℕ := i / ipb + sb.inodestart

/-- `BBLOCK(b, sb)` -/
def bblock (sb : SuperBlock) (b : ℕ) : ℕ := b / bpb + sb.bmapstart

/-- The numbers that the file system code uses; the data blocks are the last ones of the disk. -/
def toSuper (sb : SuperBlock) : Super := ⟨sb.size, sb.ninodes, sb.size - sb.nblocks⟩

end SuperBlock

/-! ## Inodes -/

/-- `0`, `T_DIR`, `T_FILE` and `T_DEVICE` -/
def typeCode : IType → ℕ
  | .free => 0
  | .dir => 1
  | .file => 2
  | .device => 3

/-- No other number is written to the disk. -/
def codeType : ℕ → IType
  | 1 => .dir
  | 2 => .file
  | 3 => .device
  | _ => .free

theorem codeType_typeCode (t : IType) : codeType (typeCode t) = t := by cases t <;> rfl

def getShort (b : Block) (j : ℕ) : ℕ := (b (2 * j)).toNat + 256 * (b (2 * j + 1)).toNat

/-- The value at byte `o` of the number `v`. -/
def lowByte (v o : ℕ) : UInt8 := UInt8.ofNat (v / 256 ^ o)

/-- The bytes of an inode on disk. -/
def dinodeBytes (d : Dinode) (o : ℕ) : UInt8 :=
  if o < 2 then lowByte (typeCode d.type) (o % 2)
  else if o < 4 then lowByte d.major.toNat (o % 2)
  else if o < 6 then lowByte d.minor.toNat (o % 2)
  else if o < 8 then lowByte d.nlink.toNat (o % 2)
  else if o < 12 then lowByte d.size (o % 4)
  else lowByte (d.addrs ((o - 12) / 4)) (o % 4)

/-- The inode whose bytes start at `b 0`. -/
def readDinode (b : ℕ → UInt8) : Dinode where
  type := codeType (getShort b 0)
  major := BitVec.ofNat 16 (getShort b 1)
  minor := BitVec.ofNat 16 (getShort b 2)
  nlink := BitVec.ofNat 16 (getShort b 3)
  size := getUint b 2
  addrs := fun j => if j ≤ nDirect then getUint b (3 + j) else 0

/-- `*ip = *((struct dinode*)buf + k)` -/
def getDinode (b : Block) (k : ℕ) : Dinode := readDinode fun o => b (dinodeSize * k + o)

/-- `*((struct dinode*)buf + k) = *ip` -/
def putDinode (b : Block) (k : ℕ) (d : Dinode) : Block :=
  overlay b (dinodeSize * k) dinodeSize (dinodeBytes d)

/-- The numbers of an inode are `uint`s; it has no addresses beyond the thirteenth. -/
structure Packable (d : Dinode) : Prop where
  size : d.size < 2 ^ 32
  addrs : ∀ j, d.addrs j < 2 ^ 32
  beyond : ∀ j, nDirect < j → d.addrs j = 0

theorem lowByte_short {v : ℕ} (hv : v < 2 ^ 16) :
    (lowByte v 0).toNat + 256 * (lowByte v 1).toNat = v := by
  unfold lowByte
  simp only [UInt8.toNat_ofNat']
  omega

theorem lowByte_uint {v : ℕ} (hv : v < 2 ^ 32) :
    (lowByte v 0).toNat + 256 * (lowByte v 1).toNat + 65536 * (lowByte v 2).toNat +
      16777216 * (lowByte v 3).toNat = v := by
  unfold lowByte
  simp only [UInt8.toNat_ofNat']
  omega

theorem typeCode_lt (t : IType) : typeCode t < 2 ^ 16 := by cases t <;> decide

theorem getUint_dinodeBytes (d : Dinode) {j : ℕ} (hv : d.addrs j < 2 ^ 32) :
    getUint (dinodeBytes d) (3 + j) = d.addrs j := by
  have hbyte : ∀ r, r < 4 → dinodeBytes d (4 * (3 + j) + r) = lowByte (d.addrs j) r := by
    intro r hr
    unfold dinodeBytes
    rw [if_neg (by omega), if_neg (by omega), if_neg (by omega), if_neg (by omega),
      if_neg (by omega),
      show (4 * (3 + j) + r - 12) / 4 = j by omega, show (4 * (3 + j) + r) % 4 = r by omega]
  have h0 := hbyte 0 (by omega)
  rw [Nat.add_zero] at h0
  unfold getUint
  rw [h0, hbyte 1 (by omega), hbyte 2 (by omega), hbyte 3 (by omega)]
  exact lowByte_uint hv

/-- An inode is read as it was written. -/
theorem readDinode_dinodeBytes {d : Dinode} (h : Packable d) : readDinode (dinodeBytes d) = d := by
  have htype : getShort (dinodeBytes d) 0 = typeCode d.type := lowByte_short (typeCode_lt d.type)
  have hmajor : getShort (dinodeBytes d) 1 = d.major.toNat := lowByte_short d.major.isLt
  have hminor : getShort (dinodeBytes d) 2 = d.minor.toNat := lowByte_short d.minor.isLt
  have hnlink : getShort (dinodeBytes d) 3 = d.nlink.toNat := lowByte_short d.nlink.isLt
  have hsize : getUint (dinodeBytes d) 2 = d.size := lowByte_uint h.size
  have haddrs : (fun j => if j ≤ nDirect then getUint (dinodeBytes d) (3 + j) else 0) =
      d.addrs := by
    funext j
    split
    · rw [getUint_dinodeBytes d (h.addrs j)]
    · next hj =>
      rw [h.beyond j (Nat.lt_of_not_le hj)]
  unfold readDinode
  rw [htype, hmajor, hminor, hnlink, hsize, haddrs, codeType_typeCode]
  simp only [BitVec.ofNat_toNat, BitVec.setWidth_eq]

/-- An inode is read from its 64 bytes. -/
theorem readDinode_congr {b b' : ℕ → UInt8} (h : ∀ o, o < dinodeSize → b o = b' o) :
    readDinode b = readDinode b' := by
  have hshort : ∀ j, j < 4 → getShort b j = getShort b' j := by
    intro j hj
    unfold getShort
    rw [h _ (by unfold dinodeSize; omega), h _ (by unfold dinodeSize; omega)]
  have huint : ∀ j, j < 16 → getUint b j = getUint b' j := by
    intro j hj
    unfold getUint
    rw [h _ (by unfold dinodeSize; omega), h _ (by unfold dinodeSize; omega),
      h _ (by unfold dinodeSize; omega), h _ (by unfold dinodeSize; omega)]
  have haddrs : (fun j => if j ≤ nDirect then getUint b (3 + j) else 0) =
      fun j => if j ≤ nDirect then getUint b' (3 + j) else 0 := by
    funext j
    by_cases hj : j ≤ nDirect
    · rw [if_pos hj, if_pos hj, huint _ (by unfold nDirect at hj; omega)]
    · rw [if_neg hj, if_neg hj]
  unfold readDinode
  rw [hshort 0 (by decide), hshort 1 (by decide), hshort 2 (by decide), hshort 3 (by decide),
    huint 2 (by decide), haddrs]

theorem getDinode_putDinode {b : Block} {k : ℕ} {d : Dinode} (h : Packable d) :
    getDinode (putDinode b k d) k = d := by
  rw [← readDinode_dinodeBytes h]
  refine readDinode_congr fun o ho => ?_
  unfold putDinode overlay
  rw [if_pos (by omega), Nat.add_sub_cancel_left, readDinode_dinodeBytes h]

theorem getDinode_putDinode_ne {b : Block} {k k' : ℕ} {d : Dinode} (hk : k' ≠ k) :
    getDinode (putDinode b k d) k' = getDinode b k' := by
  refine readDinode_congr fun o ho => ?_
  unfold putDinode overlay dinodeSize at *
  rw [if_neg (by omega)]

theorem packable_getDinode (b : Block) (k : ℕ) : Packable (getDinode b k) := by
  have huint : ∀ (f : Block) j, getUint f j < 2 ^ 32 := by
    intro f j
    unfold getUint
    have h0 := (f (4 * j)).toNat_lt
    have h1 := (f (4 * j + 1)).toNat_lt
    have h2 := (f (4 * j + 2)).toNat_lt
    have h3 := (f (4 * j + 3)).toNat_lt
    omega
  refine ⟨huint (fun o => b (dinodeSize * k + o)) 2, fun j => ?_, fun j hj =>
    if_neg (Nat.not_le.mpr hj)⟩
  unfold getDinode readDinode
  dsimp only
  split
  · exact huint _ _
  · decide

/-! ## The kernel's view -/

namespace Image

variable (img : Image)

/-- The inodes on a disk with super block `sb`. Numbers from `ninodes` on are not in use. -/
def dinode (sb : SuperBlock) (i : ℕ) : Dinode :=
  if i < sb.ninodes then getDinode (img (sb.iblock i)) (i % ipb) else .fresh .free

/-- `(bp->data[bi/8] & (1 << (bi % 8))) != 0` -/
def bit (sb : SuperBlock) (b : ℕ) : Bool :=
  img (sb.bblock b) (b % bpb / 8) &&& (1 <<< UInt8.ofNat (b % bpb % 8)) != 0

/-- The state in which the kernel starts with the disk. Blocks in front of the data blocks are only
read as inodes and as the free map. -/
def mount : Store :=
  let sb := SuperBlock.read (img 1)
  { bit := img.bit sb
    block := fun b => if sb.toSuper.nmeta ≤ b then img b else fun _ => 0
    dinode := img.dinode sb
    inode := fun _ => ⟨0, 0, false, false, .fresh .free⟩ }

end Image

end Xv6.Mkfs
