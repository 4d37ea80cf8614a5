/-
  `morecore` and `sbrk` for large requests.

  `morecore` asks for `nu * sizeof(Header)` bytes, computed with 64 bits, and `sbrk` takes an `int`.
  From 2^27 units on the number is negative, 0 or 16 there; `sbrk` succeeds and grows the process by
  16 bytes at most. Where the process has a page for the header, `morecore` records a block of `nu`
  units all the same.
-/
import Xv6.Umalloc.Runs

namespace Xv6.Umalloc

open Lib List Umalloc.Heap

/-- `sbrk` for a process of size `sz`. `mem` says whether `uvmalloc` finds the memory. -/
def sbrk (mem : Bool) (sz : ℕ) (n : ℤ) : Option Break :=
  if 0 < n then if trapframeVa < sz + n.toNat ∨ !mem then none else some ⟨sz, sz + n.toNat⟩
  else if n < 0 then
    -- `uvmdealloc` keeps the size if `sz + n` is not below it
    let newsz := ((sz + n) % 2 ^ 64).toNat
    some ⟨sz, if sz ≤ newsz then sz else newsz⟩
  else some ⟨sz, sz⟩

/-- The argument of `sbrk` in `morecore`. -/
def coreBytes (nu : ℕ) : ℤ := (BitVec.ofNat 32 (16 * coreUnits nu)).toInt

/-- What `sbrk` does in `malloc(nbytes)`. -/
def grow (mem : Bool) (sz nbytes : ℕ) : Option Break := sbrk mem sz (coreBytes (nunits nbytes))

/-- The bytes of a result lie in memory that `sbrk` has added, now or before. -/
def Inside (s : Sys) (mem : Bool) (sz nbytes p : ℕ) : Prop :=
  ∀ x, p ≤ x → x < p + nbytes → (∃ g ∈ s.regions, g.addr ≤ x ∧ x < g.stop) ∨
    ∃ sz', grow mem sz nbytes = some ⟨sz, sz'⟩ ∧ sz ≤ x ∧ x < sz'

variable {mem : Bool} {sz nbytes : ℕ}

theorem grow_some (h : 16 * coreUnits (nunits nbytes) < 2 ^ 31) {x : Break}
    (hs : grow mem sz nbytes = some x) :
    x.addr = sz ∧ x.size = sz + 16 * coreUnits (nunits nbytes) := by
  have hpos : 0 < coreUnits (nunits nbytes) := by
    unfold coreUnits
    split <;> omega
  have hn : coreBytes (nunits nbytes) = 16 * coreUnits (nunits nbytes) := by
    rw [coreBytes, BitVec.toInt_eq_toNat_cond, BitVec.toNat_ofNat]
    omega
  unfold grow sbrk at hs
  rw [hn, if_pos (by omega)] at hs
  split at hs
  · cases hs
  · cases hs
    exact ⟨rfl, by dsimp only; omega⟩

/-- A larger request hardly grows a process of 4072 bytes, and leaves it its page. -/
theorem grow_huge (hn : nbytes < 2 ^ 32) (h : ¬16 * coreUnits (nunits nbytes) < 2 ^ 31) :
    ∃ sz', 0 < sz' ∧ sz' ≤ 4088 ∧ grow true 4072 nbytes = some ⟨4072, sz'⟩ := by
  have hcore : coreUnits (nunits nbytes) ≤ 2 ^ 28 + 1 := by
    unfold coreUnits nunits
    split <;> omega
  have hint : coreBytes (nunits nbytes) ≤ 16 ∧ coreBytes (nunits nbytes) % 16 = 0 ∧
      -2 ^ 31 ≤ coreBytes (nunits nbytes) := by
    rw [coreBytes, BitVec.toInt_eq_toNat_cond, BitVec.toNat_ofNat]
    split <;> omega
  unfold grow sbrk
  split
  · rw [if_neg (by unfold trapframeVa trampoline maxVa pgSize; simp; omega)]
    exact ⟨_, by omega, by omega, rfl⟩
  split
  · refine ⟨_, ?_, ?_, rfl⟩ <;> split <;> omega
  · exact ⟨_, by decide, by decide, rfl⟩

/-- The first `malloc` of a program returns the block that `morecore` has recorded. -/
theorem first_malloc (h : ¬16 * coreUnits (nunits nbytes) < 2 ^ 31) (m : ℕ → Header) {x : Break}
    (hx : 32 ≤ x.addr) (hb : x.Backed) : ∃ h, (Sys.init 16 m).heap.malloc 3 nbytes [some x] =
      some (some (x.addr + 16), h, [⟨x.addr, nunits nbytes⟩]) := by
  have hn : 4096 ≤ nunits nbytes := by
    unfold coreUnits at h
    split at h <;> omega
  have hcore : coreUnits (nunits nbytes) = nunits nbytes := if_neg (by omega)
  have h0 : nunits nbytes ≠ 0 := by omega
  have hjoin : x.addr + 16 * nunits nbytes ≠ 16 := by omega
  have hlt : 16 < x.addr := by omega
  have hne : x.addr ≠ 16 := by omega
  have hne' : ¬ 16 = x.addr := by omega
  simp [Sys.init, malloc, start, mallocLoop, morecore, hb, free, seek, Stops, joinNext, joinPrev,
    Heap.set, carve, Function.update_apply, hcore, h0, hjoin, hlt, hne, hne']

/-- A state that legal calls and stores lead to, in a process whose size is above the regions; what
`malloc` may add to them leaves fewer than 2^32 units in all. -/
structure Reached (s : Sys) (sz nbytes : ℕ) : Prop where
  run : ∃ base m, 0 < base ∧ Relation.ReflTransGen Step (Sys.init base m) s
  total : s.total + coreUnits (nunits nbytes) < 2 ^ 32
  low : s.heap.base + 16 ≤ sz
  above : ∀ g ∈ s.regions, g.stop ≤ sz

/-- **Which requests end up inside the process.** All results of `malloc` do exactly if `sbrk` gets
a positive `int`; and then `malloc` returns. -/
theorem malloc_inside_iff (nbytes : UInt32) :
    ((∀ s mem sz r p, Reached s sz nbytes.toNat →
      Returns (fun fuel => s.heap.malloc fuel nbytes.toNat [grow mem sz nbytes.toNat]) r →
      r.1 = some p → Inside s mem sz nbytes.toNat p) ↔
        16 * coreUnits (nunits nbytes.toNat) < 2 ^ 31) ∧
    (16 * coreUnits (nunits nbytes.toNat) < 2 ^ 31 → ∀ s mem sz, Reached s sz nbytes.toNat →
      ∃ r, Returns (fun fuel => s.heap.malloc fuel nbytes.toNat [grow mem sz nbytes.toNat]) r) := by
  have hlt := nbytes.toNat_lt
  generalize nbytes.toNat = nbytes at *
  -- a request that `sbrk` gets as it is meant
  have hsmall : 16 * coreUnits (nunits nbytes) < 2 ^ 31 → ∀ s mem sz, Reached s sz nbytes →
      ∃ r, Returns (fun fuel => s.heap.malloc fuel nbytes [grow mem sz nbytes]) r ∧
        ∀ p, r.1 = some p → Inside s mem sz nbytes p := by
    intro h s mem sz hs
    obtain ⟨base, m, hbase, hrun⟩ := hs.run
    have htotal := hs.total
    have hi := Inv.of_run hbase hrun (by omega)
    have hl : (Call.malloc nbytes [grow mem sz nbytes]).Legal s := by
      refine ⟨h, fun o ho x hx => ?_⟩
      rw [mem_singleton.mp ho] at hx
      obtain ⟨ha, hsize⟩ := grow_some h hx
      rw [ha, hsize]
      exact ⟨hs.low, hs.above, rfl⟩
    obtain ⟨r, N, hret, hap, hgood⟩ := hi.malloc hl fun _ _ _ _ _ _ => htotal
    refine ⟨r, hret, fun p hp x h1 h2 => ?_⟩
    obtain ⟨free, hint⟩ := hgood.intact
    have hge := hap p hp
    obtain ⟨g, hg, hx⟩ :=
      (hint.cover x).mp ⟨_, mem_append_right _ (s.afterMalloc_live nbytes hp), by
      unfold Block.stop nunits
      dsimp only
      omega⟩
    rcases List.mem_append.mp hg with hnew | hold
    · -- the region that was added now
      obtain ⟨k, hk⟩ := hret
      obtain ⟨pre, hpre, hreg⟩ := mallocLoop_new k _ _ _ _ _ r (hk k (Nat.le_refl k))
      rw [List.append_nil] at hpre
      obtain ⟨⟨y, hy, hyg⟩, hsize⟩ := hreg g (hpre ▸ hnew)
      obtain ⟨ha, hysz⟩ := grow_some h (mem_singleton.mp hy).symm
      refine .inr ⟨y.size, ?_, ?_, ?_⟩
      · rw [← mem_singleton.mp hy, ← ha]
      · omega
      · rw [Block.stop, hsize, ← hyg] at hx
        omega
    · exact .inl ⟨g, hold, hx⟩
  refine ⟨⟨fun hall => ?_, fun h s mem sz r p hs hr hp => ?_⟩, fun h s mem sz hs => ?_⟩
  · by_contra h
    have hcore : coreUnits (nunits nbytes) < 2 ^ 32 := by
      unfold coreUnits nunits
      split <;> omega
    obtain ⟨sz', hpos', hle, hg⟩ := grow_huge hlt h
    have hback : (⟨4072, sz'⟩ : Break).Backed := by
      unfold Break.Backed pgRoundUp pgSize
      dsimp only
      omega
    obtain ⟨h', hm⟩ := first_malloc h (fun _ => ⟨0, 0⟩) (show 32 ≤ 4072 by decide) hback
    have hpos : 0 < nbytes := by
      unfold coreUnits nunits at h
      split at h <;> omega
    have hin := hall (Sys.init 16 fun _ => ⟨0, 0⟩) true 4072 _ 4088
      ⟨⟨16, _, by decide, .refl⟩, by rw [Sys.total, Sys.init]; simpa using hcore, by decide, nofun⟩
      (by rw [hg]; exact (malloc_mono _ nbytes _).returns 3 hm) rfl
    rcases hin 4088 (Nat.le_refl _) (by omega) with ⟨g, hmem, _⟩ | ⟨sz'', hg', _, hlt⟩
    · cases hmem
    · rw [hg] at hg'
      cases hg'
      omega
  · obtain ⟨r', hr', hin⟩ := hsmall h s mem sz hs
    obtain rfl := hr'.unique hr
    exact hin p hp
  · obtain ⟨r, hr, _⟩ := hsmall h s mem sz hs
    exact ⟨r, hr⟩

/-- `malloc(2^32 - 1)` in a process of one page gets 16 bytes more from `sbrk`, records a block of
2^28 + 1 units there, and returns what lies behind them. -/
theorem malloc_huge_outside : ∃ h,
    (Sys.init 16 fun _ => ⟨0, 0⟩).heap.malloc 3 (2 ^ 32 - 1) [grow true 4096 (2 ^ 32 - 1)] =
      some (some 4112, h, [⟨4096, 2 ^ 28 + 1⟩]) ∧
    grow true 4096 (2 ^ 32 - 1) = some ⟨4096, 4112⟩ ∧
    ¬Inside (Sys.init 16 fun _ => ⟨0, 0⟩) true 4096 (2 ^ 32 - 1) 4112 := by
  have hg : grow true 4096 (2 ^ 32 - 1) = some ⟨4096, 4112⟩ := by decide
  obtain ⟨h, hm⟩ := first_malloc (show ¬16 * coreUnits (nunits (2 ^ 32 - 1)) < 2 ^ 31 by decide)
    (fun _ => ⟨0, 0⟩) (x := ⟨4096, 4112⟩) (by decide) (by decide)
  refine ⟨h, by rw [hg]; exact hm, hg, fun hin => ?_⟩
  rcases hin 4112 (Nat.le_refl _) (by decide) with ⟨g, hmem, _⟩ | ⟨sz', hg', _, hlt⟩
  · cases hmem
  · rw [hg] at hg'
    cases hg'
    exact absurd hlt (by decide)

end Xv6.Umalloc
