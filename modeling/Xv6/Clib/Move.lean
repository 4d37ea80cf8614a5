/-
  `memmove`, of `kernel/string.c` and of `user/ulib.c`.

  They choose the direction of the copy by different tests. The kernel goes down only where going up
  would overwrite bytes that it has yet to read; the user library goes down wherever the source is
  not above the destination. Both have the effect of copying all bytes at once.
-/
import Mathlib

namespace Xv6.Clib

open Function

abbrev Mem := BitVec 64 → UInt8

/-- `while(n-- > 0) *d++ = *s++` -/
def copyUp : ℕ → BitVec 64 → BitVec 64 → Mem → Mem
  | 0, _, _, mem => mem
  | n + 1, d, s, mem => copyUp n (d + 1) (s + 1) (update mem d (mem s))

/-- `while(n-- > 0) *--d = *--s` -/
def copyDown : ℕ → BitVec 64 → BitVec 64 → Mem → Mem
  | 0, _, _, mem => mem
  | n + 1, d, s, mem => copyDown n (d - 1) (s - 1) (update mem (d - 1) (mem (s - 1)))

/-- The kernel's; `n` is a `uint`. -/
def memmove (dst src : BitVec 64) (n : BitVec 32) (mem : Mem) : Mem :=
  if n = 0 then mem
  else if src < dst ∧ src + n.setWidth 64 > dst then
    copyDown n.toNat (dst + n.setWidth 64) (src + n.setWidth 64) mem
  else copyUp n.toNat dst src mem

/-- The user library's; `n` is an `int`. -/
def User.memmove (dst src : BitVec 64) (n : BitVec 32) (mem : Mem) : Mem :=
  if src > dst then copyUp n.toInt.toNat dst src mem
  else copyDown n.toInt.toNat (dst + n.signExtend 64) (src + n.signExtend 64) mem

/-- The `n` bytes at `src` in `mem` are at `dst` in `mem'`, and all else is as in `mem`. -/
structure Moved (dst src : BitVec 64) (n : ℕ) (mem mem' : Mem) : Prop where
  copied : ∀ i < n, mem' (dst + BitVec.ofNat 64 i) = mem (src + BitVec.ofNat 64 i)
  frame : ∀ a : BitVec 64, a.toNat < dst.toNat ∨ dst.toNat + n ≤ a.toNat → mem' a = mem a

variable {d s : BitVec 64} {n : ℕ} {mem m : Mem}

/-- The destination has every byte that it should have. -/
theorem Moved.unique {m' : Mem} (h : Moved d s n mem m) (h' : Moved d s n mem m') : m = m' := by
  funext a
  by_cases ha : a.toNat < d.toNat ∨ d.toNat + n ≤ a.toNat
  · rw [h.frame a ha, h'.frame a ha]
  · have hi : a = d + BitVec.ofNat 64 (a.toNat - d.toNat) := by bv_omega
    rw [hi, h.copied _ (by omega), h'.copied _ (by omega)]

/-- Going up, a byte is read before it is overwritten if the destination is not in the source
behind it. -/
theorem copyUp_moved (hd : d.toNat + n ≤ 2 ^ 64) (hs : s.toNat + n ≤ 2 ^ 64)
    (h : d.toNat ≤ s.toNat ∨ s.toNat + n ≤ d.toNat) : Moved d s n mem (copyUp n d s mem) := by
  induction n generalizing d s mem with
  | zero => exact ⟨nofun, fun _ _ => rfl⟩
  | succ n ih =>
    have ih : Moved (d + 1) (s + 1) n (update mem d (mem s)) _ :=
      ih (by bv_omega) (by bv_omega) (by bv_omega)
    rw [copyUp]
    refine ⟨fun i hi => ?_, fun a ha => ?_⟩
    · cases i with
      | zero =>
        rw [ih.frame _ (by bv_omega)]
        simp
      | succ i =>
        have hc := ih.copied i (by omega)
        rw [update_of_ne (by bv_omega)] at hc
        have hi : ∀ x : BitVec 64, x + BitVec.ofNat 64 (i + 1) = x + 1 + BitVec.ofNat 64 i :=
          fun x => by bv_omega
        rw [hi, hi]
        exact hc
    · rw [ih.frame a (by bv_omega), update_of_ne (by bv_omega)]

/-- Going down, if the source is not in the destination before it. -/
theorem copyDown_moved (hd : d.toNat + n ≤ 2 ^ 64) (hs : s.toNat + n ≤ 2 ^ 64)
    (h : s.toNat ≤ d.toNat) :
    Moved d s n mem (copyDown n (d + BitVec.ofNat 64 n) (s + BitVec.ofNat 64 n) mem) := by
  induction n generalizing mem with
  | zero => exact ⟨nofun, fun _ _ => rfl⟩
  | succ n ih =>
    have hi : ∀ x : BitVec 64, x + BitVec.ofNat 64 (n + 1) - 1 = x + BitVec.ofNat 64 n :=
      fun x => by bv_omega
    have ih : Moved d s n (update mem (d + BitVec.ofNat 64 n) (mem (s + BitVec.ofNat 64 n))) _ :=
      ih (by omega) (by omega)
    rw [copyDown, hi, hi]
    refine ⟨fun i hlt => ?_, fun a ha => ?_⟩
    · by_cases hin : i = n
      · rw [hin, ih.frame _ (by bv_omega), update_self]
      · rw [ih.copied i (by omega), update_of_ne (by bv_omega)]
    · rw [ih.frame a (by omega), update_of_ne (by bv_omega)]

section

variable (mem) {dst src : BitVec 64} {n : BitVec 32} (hd : dst.toNat + n.toNat ≤ 2 ^ 64)
  (hs : src.toNat + n.toNat ≤ 2 ^ 64)

include hd hs

theorem memmove_moved : Moved dst src n.toNat mem (memmove dst src n mem) := by
  have hn : n.setWidth 64 = BitVec.ofNat 64 n.toNat := by bv_omega
  unfold memmove
  split
  · next h0 =>
    rw [h0]
    exact ⟨nofun, fun _ _ => rfl⟩
  split
  · next h =>
    rw [hn]
    exact copyDown_moved hd hs (by bv_omega)
  · exact copyUp_moved hd hs (by bv_omega)

theorem User.memmove_moved (h0 : 0 ≤ n.toInt) :
    Moved dst src n.toNat mem (User.memmove dst src n mem) := by
  have hnn : n.toInt.toNat = n.toNat := by
    rw [BitVec.toInt_eq_toNat_cond] at *
    split at * <;> omega
  have hn : n.signExtend 64 = BitVec.ofNat 64 n.toNat := by
    rw [BitVec.signExtend, ← hnn]
    apply BitVec.eq_of_toNat_eq
    simp
    omega
  unfold User.memmove
  rw [hnn]
  split
  · exact copyUp_moved hd hs (by bv_omega)
  · rw [hn]
    exact copyDown_moved hd hs (by bv_omega)

end

/-- **`memmove` copies all bytes at once**, the kernel's and the user library's, however the two
ranges overlap; so they agree. -/
theorem memmove_simultaneous (mem : Mem) (dst src : BitVec 64) (n : BitVec 32)
    (hd : dst.toNat + n.toNat ≤ 2 ^ 64) (hs : src.toNat + n.toNat ≤ 2 ^ 64) :
    Moved dst src n.toNat mem (memmove dst src n mem) ∧
      (0 ≤ n.toInt → Moved dst src n.toNat mem (User.memmove dst src n mem) ∧
        User.memmove dst src n mem = memmove dst src n mem) := by
  have hk := memmove_moved mem hd hs
  refine ⟨hk, fun h0 => ?_⟩
  have hu := User.memmove_moved mem hd hs h0
  exact ⟨hu, hu.unique hk⟩

/-- Two bytes up, in the middle of three. -/
theorem memmove_simultaneous_overlap :
    Moved 11 10 2 (fun a => .ofNat a.toNat) (memmove 11 10 2 fun a => .ofNat a.toNat) :=
  (memmove_simultaneous (fun a => .ofNat a.toNat) 11 10 2 (by decide) (by decide)).1

end Xv6.Clib
