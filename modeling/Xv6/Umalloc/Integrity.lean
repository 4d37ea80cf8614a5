/-
  The integrity of a user program's heap.

  Free and live blocks together are the units of the regions that `sbrk` has given, each once. From
  this the blocks are disjoint and cover the regions, and no size overflows while the regions have
  fewer than 2^32 units.
-/
import Xv6.Umalloc.Walk

namespace Xv6.Umalloc

open Lib List Block Umalloc.Heap

variable {s s' : Sys} {N A B : List Block} {b c r : Block} {a u v nu nbytes : ℕ}
  {answers : List (Option Heap.Break)}

/-! ## Blocks and units -/

/-- Two units that share no byte. -/
def Apart (u v : ℕ) : Prop := u + 16 ≤ v ∨ v + 16 ≤ u

theorem Apart.symm (h : Apart u v) : Apart v u := Or.symm h

theorem Apart.ne (h : Apart u v) : u ≠ v := by
  rintro rfl
  unfold Apart at h
  omega

/-- Blocks whose units are apart share no byte. -/
theorem Block.disjoint_of_apart (hb : 0 < b.size) (hc : 0 < c.size)
    (h : ∀ u ∈ b.units, ∀ v ∈ c.units, Apart u v) : b.Disjoint c := by
  by_contra hno
  unfold Block.Disjoint Block.stop at hno
  rw [not_or] at hno
  obtain ⟨h1, h2⟩ := hno
  rcases Nat.le_total b.addr c.addr with hle | hle
  · have := h _ (Block.mem_units.mpr ⟨(c.addr - b.addr) / 16, by omega, rfl⟩) _ (addr_mem_units hc)
    unfold Apart at this
    omega
  · have := h _ (addr_mem_units hb) _ (Block.mem_units.mpr ⟨(b.addr - c.addr) / 16, by omega, rfl⟩)
    unfold Apart at this
    omega

theorem Block.units_apart (b : Block) : b.units.Pairwise Apart := by
  unfold Block.units
  refine List.pairwise_map.mpr (List.pairwise_lt_range.imp ?_)
  intro i j hij
  unfold Apart
  omega

theorem Block.unit_stop (hu : u ∈ b.units) : b.addr ≤ u ∧ u + 16 ≤ b.stop := by
  obtain ⟨i, hi, rfl⟩ := Block.mem_units.mp hu
  unfold Block.stop
  omega

/-- A byte of a block is a byte of one of its units. -/
theorem Block.byte_iff {x : ℕ} : b.addr ≤ x ∧ x < b.stop ↔ ∃ u ∈ b.units, u ≤ x ∧ x < u + 16 := by
  constructor
  · rintro ⟨h1, h2⟩
    unfold Block.stop at h2
    exact ⟨_, Block.mem_units.mpr ⟨(x - b.addr) / 16, by omega, rfl⟩, by omega, by omega⟩
  · rintro ⟨u, hu, h1, h2⟩
    obtain ⟨h3, h4⟩ := unit_stop hu
    omega

/-! ## The invariant -/

/-- `N` is the free list; the blocks are made of the units of the regions. -/
structure Good (s : Sys) (N : List Block) : Prop where
  base : 0 < s.heap.base
  list : FreeList s.heap N
  live : ∀ b ∈ s.live, (s.heap.mem b.addr).size = b.size ∧ 0 < b.size
  units : ((N ++ s.live).flatMap Block.units).Perm (s.regions.flatMap Block.units)
  apart : (s.regions.flatMap Block.units).Pairwise Apart
  above : ∀ u ∈ s.regions.flatMap Block.units, s.heap.base + 16 ≤ u

namespace Good

section

variable (hg : Good s N)

include hg

theorem all_apart : ((N ++ s.live).flatMap Block.units).Pairwise Apart :=
  (hg.units.pairwise_iff fun h => h.symm).mpr hg.apart

theorem cross (hu : u ∈ N.flatMap Block.units) (hv : v ∈ s.live.flatMap Block.units) :
    Apart u v := by
  have h := hg.all_apart
  rw [flatMap_append] at h
  exact (List.pairwise_append.mp h).2.2 u hu v hv

theorem unit_above (hu : u ∈ (N ++ s.live).flatMap Block.units) : s.heap.base + 16 ≤ u :=
  hg.above u (hg.units.mem_iff.mp hu)

theorem live_unit (hb : b ∈ s.live) : b.addr ∈ s.live.flatMap Block.units :=
  List.mem_flatMap.mpr ⟨b, hb, addr_mem_units (hg.live b hb).2⟩

theorem live_above (hb : b ∈ s.live) : s.heap.base + 16 ≤ b.addr := by
  refine hg.unit_above ?_
  rw [flatMap_append]
  exact mem_append_right _ (hg.live_unit hb)

theorem live_not_node (hb : b ∈ s.live) : b.addr ∉ N.map Block.addr := by
  intro hx
  obtain ⟨c, hc, hcb⟩ := List.mem_map.mp hx
  have habove := hg.live_above hb
  have hpos := hg.list.pos c hc (by omega)
  exact (hg.cross (List.mem_flatMap.mpr ⟨c, hc, addr_mem_units hpos⟩) (hg.live_unit hb)).ne hcb

theorem sizes : (N.map Block.size).sum + (s.live.map Block.size).sum = s.total := by
  have hlen := hg.units.length_eq
  rw [length_flatMap_units, length_flatMap_units, map_append, sum_append] at hlen
  exact hlen

/-- **`free` of a live block.** -/
theorem free (hb : b ∈ s.live) (htotal : s.total < 2 ^ 32) :
    ∃ h' N', Returns (fun fuel => s.heap.free fuel (b.addr + 16)) h' ∧
      Good { s with heap := h', live := s.live.erase b } N' ∧ ∃ c ∈ N', b.size ≤ c.size := by
  obtain ⟨hsize, hpos⟩ := hg.live b hb
  have habove := hg.live_above hb
  have hperm := perm_cons_erase hb
  have hsum : b.size + (N.map Block.size).sum < 2 ^ 32 := by
    have h1 := hg.sizes
    have h2 := (hperm.flatMap_right Block.units).length_eq
    rw [length_flatMap_units, length_flatMap_units, map_cons, sum_cons] at h2
    omega
  obtain ⟨h', N', hret, hlist, hbase, hunits, hlarge, hmem⟩ := hg.list.free hsize hpos (by omega)
    (fun c hc hne => disjoint_of_apart (hg.list.pos c hc hne) hpos fun u hu v hv =>
      hg.cross (List.mem_flatMap.mpr ⟨c, hc, hu⟩) (List.mem_flatMap.mpr ⟨b, hb, hv⟩)) hsum
  have hself : ∀ c ∈ s.live.erase b, c.addr ≠ b.addr := by
    intro c hc
    have h := hg.all_apart
    rw [flatMap_append] at h
    have h := ((hperm.flatMap_right Block.units).pairwise_iff fun h => h.symm).mp
      (List.pairwise_append.mp h).2.1
    rw [flatMap_cons] at h
    have hcl := hg.live c (mem_of_mem_erase hc)
    exact ((List.pairwise_append.mp h).2.2 _ (addr_mem_units hpos) _
      (List.mem_flatMap.mpr ⟨c, hc, addr_mem_units hcl.2⟩)).symm.ne
  refine ⟨h', N', hret, ⟨?_, hlist, ?_, ?_, hg.apart, ?_⟩, hlarge⟩
  · rw [hbase]
    exact hg.base
  · intro c hc
    have hcl := mem_of_mem_erase hc
    rw [hmem c.addr (hself c hc) (hg.live_not_node hcl)]
    exact hg.live c hcl
  · refine List.Perm.trans ?_ hg.units
    rw [flatMap_append, flatMap_append]
    refine (hunits.append_right _).trans ?_
    rw [flatMap_cons, append_assoc]
    refine (perm_append_comm_assoc _ _ _).trans (List.Perm.append_left _ ?_)
    rw [← flatMap_cons]
    exact (hperm.flatMap_right _).symm
  · rw [hbase]
    exact hg.above

end

end Good

theorem FreeList.set {h : Heap} (hf : FreeList h N) (ha : a ∉ N.map Block.addr) (x : Header) :
    FreeList (h.set a x) N where
  head := hf.head
  trail := by
    refine hf.trail.congr fun y hy => ?_
    have hya : y ≠ a := fun hya => ha (hya ▸ hy)
    rw [set_ne _ _ hya]
  sorted := hf.sorted
  size b hb := by
    have hba : b.addr ≠ a := fun hba => ha (hba ▸ List.mem_map.mpr ⟨b, hb, rfl⟩)
    rw [set_ne _ _ hba]
    exact hf.size b hb
  pos := hf.pos
  freep := hf.freep

/-- A new region above the others, as a live block. -/
theorem Good.grow (hg : Good s N) (hnu : 0 < nu) (hbase : s.heap.base + 16 ≤ a)
    (hup : ∀ r ∈ s.regions, r.stop ≤ a) :
    Good ⟨s.heap.set a ⟨(s.heap.mem a).ptr, nu⟩, ⟨a, nu⟩ :: s.live, ⟨a, nu⟩ :: s.regions⟩ N := by
  have hold : ∀ u ∈ s.regions.flatMap Block.units, u + 16 ≤ a := by
    intro u hu
    obtain ⟨r, hr, hu⟩ := List.mem_flatMap.mp hu
    exact Nat.le_trans (unit_stop hu).2 (hup r hr)
  have hall : ∀ u ∈ (N ++ s.live).flatMap Block.units, u ≠ a := by
    intro u hu
    have := hold u (hg.units.mem_iff.mp hu)
    omega
  refine ⟨hg.base, hg.list.set ?_ _, ?_, ?_, ?_, ?_⟩
  · intro hx
    obtain ⟨c, hc, hca⟩ := List.mem_map.mp hx
    refine hall c.addr (List.mem_flatMap.mpr ⟨c, mem_append_left _ hc, ?_⟩) hca
    exact addr_mem_units (hg.list.pos c hc (by omega))
  · intro c hc
    rcases List.mem_cons.mp hc with rfl | hc
    · refine ⟨?_, hnu⟩
      show ((s.heap.set a _).mem a).size = nu
      rw [set_same]
    · have hne : c.addr ≠ a := hall c.addr (by
        rw [flatMap_append]
        exact mem_append_right _ (hg.live_unit hc))
      rw [set_ne _ _ hne]
      exact hg.live c hc
  · refine (List.perm_middle.flatMap_right _).trans ?_
    rw [flatMap_cons, flatMap_cons]
    exact hg.units.append_left _
  · rw [flatMap_cons]
    refine List.pairwise_append.mpr ⟨units_apart _, hg.apart, fun u hu v hv => .inr ?_⟩
    exact Nat.le_trans (hold v hv) (unit_stop hu).1
  · intro u hu
    rw [flatMap_cons] at hu
    rcases List.mem_append.mp hu with hu | hu
    · exact Nat.le_trans hbase (unit_stop hu).1
    · exact hg.above u hu

/-- A block of the list becomes live. -/
theorem Good.carved {h' : Heap} {q : ℕ} {N' : List Block} (hg : Good s N) (hnu : 0 < nu)
    (hc : Carved s.heap N nu h' q N') : Good ⟨h', ⟨q, nu⟩ :: s.live, s.regions⟩ N' := by
  have hq : q ∈ N.flatMap Block.units :=
    hc.units.mem_iff.mp (mem_append_right _ (addr_mem_units (b := ⟨q, nu⟩) hnu))
  refine ⟨?_, hc.list, ?_, ?_, hg.apart, ?_⟩
  · rw [hc.base]
    exact hg.base
  · intro c hcm
    rcases List.mem_cons.mp hcm with rfl | hcm
    · exact ⟨hc.size, hnu⟩
    · rw [hc.mem c.addr (hg.live_not_node hcm) (hg.cross hq (hg.live_unit hcm)).symm.ne]
      exact hg.live c hcm
  · refine List.Perm.trans ?_ hg.units
    rw [flatMap_append, flatMap_append, flatMap_cons, ← append_assoc]
    exact hc.units.append_right _
  · rw [hc.base]
    exact hg.above

/-! ## `malloc` -/

theorem Heap.nunits_pos (nbytes : ℕ) : 0 < Heap.nunits nbytes := Nat.succ_pos _

theorem Heap.le_coreUnits (nu : ℕ) : nu ≤ Heap.coreUnits nu := by
  unfold Heap.coreUnits
  split_ifs <;> omega

/-- With a block that is large enough. -/
theorem Good.mallocLoop_fit (hg : Good s N) (hnu : 0 < nu) (hfit : ∃ b ∈ N, nu ≤ b.size)
    (answers : List (Option Heap.Break)) (new : List Block) :
    ∃ q h' N', Good ⟨h', ⟨q, nu⟩ :: s.live, s.regions⟩ N' ∧
      Returns (fun fuel => Heap.mallocLoop nu fuel s.heap s.heap.freep (s.heap.mem s.heap.freep).ptr
        answers new) (some (q + 16), h', new) := by
  obtain ⟨prev, z, k, hprev, hpz, hz, hend, hloop⟩ := hg.list.walk nu answers new
  have hzfit : nu ≤ (s.heap.mem z).size := by
    rcases hend with h | ⟨_, hno⟩
    · exact h
    · obtain ⟨b, hb, hbfit⟩ := hfit
      have := hno b.addr (List.mem_map.mpr ⟨b, hb, rfl⟩)
      rw [hg.list.size b hb] at this
      omega
  have hzb : z ≠ s.heap.base := by
    rintro rfl
    obtain ⟨l, hl⟩ := hg.list.cons
    have := hg.list.size ⟨s.heap.base, 0⟩ (by rw [hl]; exact mem_cons_self)
    change (s.heap.mem s.heap.base).size = 0 at this
    omega
  obtain ⟨A, Y, C, B, rfl, rfl, rfl⟩ := hg.list.split_next hprev hpz hzb
  have hC : nu ≤ C.size := by
    rw [hg.list.size C (by simp)] at hzfit
    exact hzfit
  obtain ⟨N', hc⟩ := hg.list.carve hnu hC
  refine ⟨_, _, N', hg.carved hnu hc, k + 1, fun fuel hfuel => ?_⟩
  obtain ⟨f, rfl⟩ : ∃ f, fuel = f + 1 + k := ⟨fuel - (k + 1), by omega⟩
  show Heap.mallocLoop nu (f + 1 + k) _ _ _ answers new = _
  rw [hloop, mallocLoop_succ, if_pos hzfit]

/-- Without one, the walk ends at `freep` and the loop asks for memory. -/
theorem Good.mallocLoop_full (hg : Good s N) (hsmall : ∀ b ∈ N, b.size < nu)
    (answers : List (Option Heap.Break)) :
    ∃ k, ∀ fuel, Heap.mallocLoop nu (fuel + 1 + k) s.heap s.heap.freep
      (s.heap.mem s.heap.freep).ptr answers [] =
      match answers with
      | some x :: answers => match s.heap.morecore fuel nu x with
        | none => none
        | some h => Heap.mallocLoop nu fuel h h.freep (h.mem h.freep).ptr answers
            [⟨x.addr, Heap.coreUnits nu⟩]
      | _ => some (none, s.heap, []) := by
  obtain ⟨prev, z, k, _, _, hz, hend, hloop⟩ := hg.list.walk nu answers []
  obtain ⟨c, hc, rfl⟩ := List.mem_map.mp hz
  have hzs : (s.heap.mem c.addr).size < nu := by
    rw [hg.list.size c hc]
    exact hsmall c hc
  have hzf : c.addr = s.heap.freep := by
    rcases hend with h | ⟨h, _⟩
    · omega
    · exact h
  refine ⟨k, fun fuel => ?_⟩
  rw [hloop, mallocLoop_succ, if_neg (Nat.not_le.mpr hzs)]
  exact if_pos hzf

/-- **`malloc`** with a list to search. -/
theorem Good.mallocLoop (hg : Good s N) (hnu : 0 < nu)
    (hlegal : ∀ o ∈ answers, ∀ x ∈ o, s.heap.base + 16 ≤ x.addr ∧
      (∀ r ∈ s.regions, r.stop ≤ x.addr) ∧
      x.size = x.addr + 16 * Heap.coreUnits nu)
    (hroom : ∀ x rest, answers = some x :: rest → (∀ b ∈ N, b.size < nu) →
      s.total + Heap.coreUnits nu < 2 ^ 32) :
    ∃ r N', Returns (fun fuel => Heap.mallocLoop nu fuel s.heap s.heap.freep
        (s.heap.mem s.heap.freep).ptr answers []) r ∧ (∀ ap, r.1 = some ap → 16 ≤ ap) ∧
      Good ⟨r.2.1, match r.1 with
        | none => s.live
        | some ap => ⟨ap - 16, nu⟩ :: s.live, r.2.2 ++ s.regions⟩ N' := by
  by_cases hfit : ∃ b ∈ N, nu ≤ b.size
  · obtain ⟨q, h', N', hg', hret⟩ := hg.mallocLoop_fit hnu hfit answers []
    refine ⟨_, N', hret, fun ap hap => ?_, hg'⟩
    rw [← Option.some.inj hap]
    exact Nat.le_add_left _ _
  have hsmall : ∀ b ∈ N, b.size < nu := fun b hb => Nat.lt_of_not_le fun hle => hfit ⟨b, hb, hle⟩
  obtain ⟨k, hfull⟩ := hg.mallocLoop_full hsmall answers
  have hreturns : ∀ {r n}, (∀ fuel, n ≤ fuel → Heap.mallocLoop nu (fuel + 1 + k) s.heap s.heap.freep
      (s.heap.mem s.heap.freep).ptr answers [] = some r) →
      Returns (fun fuel => Heap.mallocLoop nu fuel s.heap s.heap.freep
        (s.heap.mem s.heap.freep).ptr answers []) r := by
    intro r n hr
    refine ⟨n + 1 + k, fun fuel hfuel => ?_⟩
    obtain ⟨f, rfl⟩ : ∃ f, fuel = f + 1 + k := ⟨fuel - (k + 1), by omega⟩
    exact hr f (by omega)
  cases answers with
  | nil => exact ⟨_, N, hreturns (n := 0) fun fuel _ => hfull fuel, nofun, hg⟩
  | cons x rest =>
    cases x with
    | none => exact ⟨_, N, hreturns (n := 0) fun fuel _ => hfull fuel, nofun, hg⟩
    | some x =>
      obtain ⟨hbase, hup, hsize⟩ := hlegal (some x) mem_cons_self x rfl
      obtain ⟨a, sz⟩ := x
      dsimp only at hbase hup hsize
      have hcore : 0 < Heap.coreUnits nu := Nat.lt_of_lt_of_le hnu (le_coreUnits nu)
      have hg1 := hg.grow hcore hbase hup
      have htotal : (⟨s.heap.set a ⟨(s.heap.mem a).ptr, Heap.coreUnits nu⟩,
          ⟨a, Heap.coreUnits nu⟩ :: s.live, ⟨a, Heap.coreUnits nu⟩ :: s.regions⟩ : Sys).total <
            2 ^ 32 := by
        have := hroom ⟨a, sz⟩ rest rfl hsmall
        unfold Sys.total at this ⊢
        rw [map_cons, sum_cons]
        show Heap.coreUnits nu + _ < _
        omega
      obtain ⟨h2, N2, ⟨n2, hret2⟩, hg2, hlarge⟩ :=
        hg1.free (b := ⟨a, Heap.coreUnits nu⟩) mem_cons_self htotal
      rw [erase_cons_head] at hg2
      obtain ⟨q, h3, N3, hg3, n3, hret3⟩ := hg2.mallocLoop_fit hnu (by
        obtain ⟨d, hd, hle⟩ := hlarge
        exact ⟨d, hd, Nat.le_trans (le_coreUnits nu) hle⟩) rest [⟨a, Heap.coreUnits nu⟩]
      refine ⟨(some (q + 16), h3, [⟨a, Heap.coreUnits nu⟩]), N3,
        hreturns (n := max n2 n3) fun fuel hfuel => ?_, fun ap hap => ?_, hg3⟩
      · have hback : (⟨a, sz⟩ : Heap.Break).Backed := by
          unfold Heap.Break.Backed pgRoundUp pgSize
          dsimp only
          omega
        have hm : s.heap.morecore fuel nu ⟨a, sz⟩ = some h2 :=
          (if_pos hback).trans (hret2 fuel (by omega))
        rw [hfull]
        dsimp only
        rw [hm]
        exact hret3 fuel (by omega)
      · rw [← Option.some.inj hap]
        exact Nat.le_add_left _ _

/-- The region of `morecore` is among those that `malloc` returns. -/
theorem Good.new_le {r : Option ℕ × Heap × List Block} {fuel : ℕ} {x : Heap.Break}
    {rest : List (Option Heap.Break)} (hg : Good s N) (hsmall : ∀ b ∈ N, b.size < nu)
    (hr : Heap.mallocLoop nu fuel s.heap s.heap.freep (s.heap.mem s.heap.freep).ptr
      (some x :: rest) [] = some r) :
    Heap.coreUnits nu ≤ (r.2.2.map Block.size).sum := by
  obtain ⟨k, hfull⟩ := hg.mallocLoop_full hsmall (some x :: rest)
  have hmono : FuelMono fun fuel => Heap.mallocLoop nu fuel s.heap s.heap.freep
      (s.heap.mem s.heap.freep).ptr (some x :: rest) [] :=
    fun fuel r hr => mallocLoop_mono fuel _ _ _ _ _ r hr
  obtain ⟨n, hn⟩ := hmono.returns fuel hr
  have hr' := (hfull n).symm.trans (hn (n + 1 + k) (by omega))
  dsimp only at hr'
  cases hm : s.heap.morecore n nu x with
  | none =>
    rw [hm] at hr'
    cases hr'
  | some h =>
    rw [hm] at hr'
    obtain ⟨pre, hpre, _⟩ := mallocLoop_new n _ _ _ _ _ r hr'
    rw [← hpre, map_append, sum_append, map_singleton, sum_singleton]
    exact Nat.le_add_left _ _

end Xv6.Umalloc
