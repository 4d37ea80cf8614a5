/-
  The loop of `malloc`: walking round the free list, and taking a block out of it.
-/
import Xv6.Umalloc.FreeList

namespace Xv6.Umalloc

open Lib List Umalloc.Heap

variable {h : Heap} {N A B : List Block} {b c p Y C : Block} {a q nu : ℕ} {m : List ℕ}
  {answers : List (Option Heap.Break)} {new : List Block}

/-! ## Fuel -/

namespace Heap

theorem free_mono (h : Heap) (ap : ℕ) : FuelMono fun fuel => h.free fuel ap := by
  intro fuel r hr
  unfold free at hr ⊢
  obtain ⟨p, hp, rfl⟩ := Option.map_eq_some_iff.mp hr
  dsimp only
  have hp' : seek (fun p => (h.mem p).ptr) (h.Stops (ap - 16)) (fuel + 1) h.freep = some p :=
    seek_monotone _ fuel p hp
  rw [hp']
  rfl

/-- One round of the loop. -/
theorem morecore_mono (h : Heap) (nu : ℕ) (x : Break) :
    FuelMono fun fuel => h.morecore fuel nu x := by
  intro fuel r hr
  dsimp only at hr ⊢
  unfold morecore at hr ⊢
  split at hr
  · rename_i hb
    rw [if_pos hb]
    exact free_mono _ _ fuel r hr
  · cases hr

theorem mallocLoop_succ (nu fuel : ℕ) (h : Heap) (prevp p : ℕ) (answers : List (Option Heap.Break))
    (new : List Block) :
    mallocLoop nu (fuel + 1) h prevp p answers new = if nu ≤ (h.mem p).size then
        some (some ((h.carve prevp p nu).2 + 16), (h.carve prevp p nu).1, new) else if p =
          h.freep then
        match answers with
        | some x :: answers => match h.morecore fuel nu x with
          | none => none
          | some h => mallocLoop nu fuel h h.freep (h.mem h.freep).ptr answers
              (⟨x.addr, coreUnits nu⟩ :: new)
        | _ => some (none, h, new) else mallocLoop nu fuel h p (h.mem p).ptr answers new :=
  rfl

theorem mallocLoop_mono (fuel : ℕ) : ∀ (h : Heap) (prevp p : ℕ) (answers : List (Option Heap.Break))
    (new : List Block) r,
    mallocLoop nu fuel h prevp p answers new = some r →
      mallocLoop nu (fuel + 1) h prevp p answers new = some r := by
  induction fuel with
  | zero => exact nofun
  | succ fuel ih =>
    intro h prevp p answers new r hr
    rw [mallocLoop_succ] at hr ⊢
    split_ifs at hr ⊢
    · exact hr
    · cases answers with
      | nil => exact hr
      | cons x answers =>
        cases x with
        | none => exact hr
        | some a =>
          dsimp only at hr ⊢
          cases hm : h.morecore fuel nu a with
          | none =>
            rw [hm] at hr
            cases hr
          | some h' =>
            rw [hm] at hr
            have hm' : h.morecore (fuel + 1) nu a = some h' := morecore_mono h nu a fuel h' hm
            rw [hm']
            exact ih _ _ _ _ _ r hr
    · exact ih _ _ _ _ _ r hr

theorem malloc_mono (h : Heap) (nbytes : ℕ) (answers : List (Option Heap.Break)) :
    FuelMono fun fuel => h.malloc fuel nbytes answers :=
  fun fuel r hr => mallocLoop_mono fuel _ _ _ _ _ r hr

/-- The regions that `sbrk` answers are added to those there are. -/
theorem mallocLoop_new (fuel : ℕ) : ∀ (h : Heap) (prevp p : ℕ) (answers : List (Option Heap.Break))
    (new : List Block) r,
    mallocLoop nu fuel h prevp p answers new = some r →
      ∃ pre, pre ++ new = r.2.2 ∧ ∀ g ∈ pre, (∃ x, some x ∈ answers ∧ x.addr = g.addr) ∧
      g.size = coreUnits nu := by
  induction fuel with
  | zero => exact nofun
  | succ fuel ih =>
    intro h prevp p answers new r hr
    rw [mallocLoop_succ] at hr
    split_ifs at hr
    · cases hr
      exact ⟨[], rfl, nofun⟩
    · split at hr
      · next a answers =>
        split at hr
        · cases hr
        · obtain ⟨pre, hpre, hall⟩ := ih _ _ _ _ _ r hr
          refine ⟨pre ++ [⟨a.addr, coreUnits nu⟩], by simpa using hpre, fun g hg => ?_⟩
          rcases mem_append.mp hg with hg | hg
          · obtain ⟨⟨x, hx, hxg⟩, hsize⟩ := hall g hg
            exact ⟨⟨x, mem_cons_of_mem _ hx, hxg⟩, hsize⟩
          · rw [mem_singleton.mp hg]
            exact ⟨⟨a, mem_cons_self, rfl⟩, rfl⟩
      · cases hr
        exact ⟨[], rfl, nofun⟩
    · exact ih _ _ _ _ _ r hr

end Heap

/-! ## The walk -/

theorem mallocLoop_trail (hm : ∀ x ∈ m, (h.mem x).size < nu ∧ x ≠ h.freep) {z : ℕ}
    (ht : Trail (fun a => (h.mem a).ptr) (q :: m) z) : ∃ prev ∈ q :: m, (h.mem prev).ptr = z ∧
    ∀ fuel,
      Heap.mallocLoop nu (fuel + m.length) h q (h.mem q).ptr answers new =
        Heap.mallocLoop nu fuel h prev z answers new := by
  induction m generalizing q with
  | nil =>
    have hq : (h.mem q).ptr = z := ht.1
    exact ⟨q, mem_cons_self, hq, fun fuel => by rw [hq]; rfl⟩
  | cons x m ih =>
    have hq : (h.mem q).ptr = x := ht.1
    obtain ⟨prev, hprev, hz, hloop⟩ := ih (fun y hy => hm y (mem_cons_of_mem x hy)) ht.2
    refine ⟨prev, mem_cons_of_mem q hprev, hz, fun fuel => ?_⟩
    obtain ⟨hsmall, hne⟩ := hm x mem_cons_self
    rw [hq, length_cons, ← Nat.add_assoc, mallocLoop_succ, if_neg (Nat.not_le.mpr hsmall),
      if_neg hne]
    exact hloop fuel

/-- **The walk from `freep`** ends at a block that is large enough, or is back at `freep` when there
    is none. -/
theorem FreeList.walk (hf : FreeList h N) (nu : ℕ) (answers : List (Option Heap.Break))
    (new : List Block) :
    ∃ prev z k, prev ∈ N.map Block.addr ∧ (h.mem prev).ptr = z ∧ z ∈ N.map Block.addr ∧
      (nu ≤ (h.mem z).size ∨ z = h.freep ∧ ∀ x ∈ N.map Block.addr, (h.mem x).size < nu) ∧
      ∀ fuel, Heap.mallocLoop nu (fuel + k) h h.freep (h.mem h.freep).ptr answers new =
        Heap.mallocLoop nu fuel h prev z answers new := by
  obtain ⟨l, hl, ht⟩ := hf.circular
  have hn := hf.nodup
  have hq := hf.freep
  rw [hl] at hn hq ⊢
  obtain ⟨m, z, htm, hm, hz, hsub, hend⟩ := ht.search hn hq fun x => nu ≤ (h.mem x).size
  obtain ⟨prev, hprev, hpz, hloop⟩ := mallocLoop_trail
    (fun x hx => ⟨Nat.lt_of_not_le (hm x hx).1, (hm x hx).2⟩) htm
  refine ⟨prev, z, m.length, ?_, hpz, hz, ?_, hloop⟩
  · rcases List.mem_cons.mp hprev with rfl | hp
    · exact hq
    · exact hsub prev hp
  · rcases hend with hfit | ⟨rfl, hno⟩
    · exact .inl hfit
    · by_cases hfit : nu ≤ (h.mem h.freep).size
      · exact .inl hfit
      · refine .inr ⟨rfl, fun x hx => ?_⟩
        by_cases hxq : x = h.freep
        · rw [hxq]
          exact Nat.lt_of_not_le hfit
        · exact Nat.lt_of_not_le (hno x hx hxq)

/-- A node whose successor is not `base`. -/
theorem FreeList.split_next (hf : FreeList h N) (hp : a ∈ N.map Block.addr) (hq : (h.mem a).ptr = q)
    (hne : q ≠ h.base) : ∃ A Y C B, N = A ++ Y :: C :: B ∧ Y.addr = a ∧ C.addr = q := by
  obtain ⟨Y, hY, rfl⟩ := List.mem_map.mp hp
  obtain ⟨A, D, rfl⟩ := append_of_mem hY
  obtain ⟨_, hnext, _⟩ := hf.split
  rw [hq] at hnext
  cases D with
  | nil => exact absurd hnext hne
  | cons C B => exact ⟨A, Y, C, B, rfl, rfl, hnext.symm⟩

/-! ## Taking a block -/

/-- What `carve` does to the list. -/
structure Carved (h : Heap) (N : List Block) (nu : ℕ) (h' : Heap) (q : ℕ) (N' : List Block) :
    Prop where
  list : FreeList h' N'
  base : h'.base = h.base
  units : (N'.flatMap Block.units ++ (⟨q, nu⟩ : Block).units).Perm (N.flatMap Block.units)
  size : (h'.mem q).size = nu
  mem : ∀ a, a ∉ N.map Block.addr → a ≠ q → h'.mem a = h.mem a

theorem FreeList.carve (hf : FreeList h (A ++ Y :: C :: B)) (hnu : 0 < nu) (hfit : nu ≤ C.size) :
    ∃ N', Carved h (A ++ Y :: C :: B) nu (h.carve Y.addr C.addr nu).1
      (h.carve Y.addr C.addr nu).2 N' := by
  have hYm : Y ∈ A ++ Y :: C :: B := by simp
  have hCm : C ∈ A ++ Y :: C :: B := by simp
  have hBm : ∀ c ∈ B, c ∈ A ++ Y :: C :: B := fun c hc => by simp [hc]
  have hYs := hf.size Y hYm
  have hCs := hf.size C hCm
  obtain ⟨_, hYC, htC⟩ := hf.split
  have hYC : (h.mem Y.addr).ptr = C.addr := hYC
  have hCB : (h.mem C.addr).ptr = (B.map Block.addr).headD h.base := htC.1
  have hsort := (List.pairwise_append.mp hf.sorted).2.1
  obtain ⟨hYall, hsort'⟩ := List.pairwise_cons.mp hsort
  obtain ⟨hCall, hBsort⟩ := List.pairwise_cons.mp hsort'
  have hYltC : Y.stop < C.addr := hYall C mem_cons_self
  have hYle : Y.addr ≤ Y.stop := Nat.le_add_right _ _
  have hA : ∀ c ∈ A, c.addr < Y.addr := fun c hc =>
    Nat.lt_of_le_of_lt (Nat.le_add_right _ _) (hf.lt_of_before hc)
  have hB : ∀ c ∈ B, C.stop < c.addr := hCall
  unfold Heap.carve
  rw [hCs, hCB, hYs]
  split
  · next hex =>
    have hset : ∀ c : Block, c.addr ≠ Y.addr →
        (h.set Y.addr ⟨(B.map Block.addr).headD h.base, Y.size⟩).mem c.addr = h.mem c.addr :=
      fun c hc => set_ne _ _ hc
    have hBY : ∀ c ∈ B, c.addr ≠ Y.addr := by
      intro c hc
      have := hB c hc
      unfold Block.stop at this
      omega
    refine ⟨A ++ Y :: B, ?_, rfl, ?_, ?_, ?_⟩
    · refine hf.replace rfl (fun c hc => hset c (Nat.ne_of_lt (hA c hc))) rfl (fun _ => rfl)
        ⟨?_, ?_⟩ ?_ ?_ ?_ ?_ ?_
      · show ((h.set Y.addr _).mem Y.addr).ptr = _
        rw [set_same]
      · refine htC.2.congr fun x hx => ?_
        obtain ⟨c, hc, rfl⟩ := List.mem_map.mp hx
        show ((h.set Y.addr _).mem c.addr).ptr = _
        rw [hset c (hBY c hc)]
      · exact List.pairwise_cons.mpr ⟨fun c hc => hYall c (mem_cons_of_mem C hc), hBsort⟩
      · intro c hc
        rcases List.mem_cons.mp hc with rfl | hc
        · exact Nat.le_refl _
        · have := hB c hc
          unfold Block.stop at this
          omega
      · intro c hc
        rcases List.mem_cons.mp hc with rfl | hc
        · show ((h.set c.addr _).mem c.addr).size = _
          rw [set_same]
        · show ((h.set Y.addr _).mem c.addr).size = _
          rw [hset c (hBY c hc)]
          exact hf.size c (hBm c hc)
      · intro c hc hne
        rcases List.mem_cons.mp hc with rfl | hc
        · exact hf.pos c hYm hne
        · exact hf.pos c (hBm c hc) hne
      · exact List.mem_map.mpr ⟨Y, by simp, rfl⟩
    · have hC : (⟨C.addr, nu⟩ : Block) = C := by rw [← hex]
      rw [hC]
      simp only [flatMap_append, flatMap_cons, append_assoc]
      exact (List.perm_append_comm.append_left _).append_left _
    · show ((h.set Y.addr _).mem C.addr).size = nu
      rw [hset C (by omega), hCs, hex]
    · intro a ha _
      refine set_ne _ _ ?_
      rintro rfl
      exact ha (List.mem_map.mpr ⟨Y, hYm, rfl⟩)
  · dsimp only
    generalize hrest : C.size - nu = rest
    have hrpos : 0 < rest := by omega
    generalize hq : C.addr + 16 * rest = q
    generalize hh1 : h.set C.addr ⟨(B.map Block.addr).headD h.base, rest⟩ = h1
    have hqC : q ≠ C.addr := by omega
    have h1ptr : ∀ a, (h1.mem a).ptr = (h.mem a).ptr := by
      intro a
      rw [← hh1]
      by_cases ha : a = C.addr
      · rw [ha, set_same, hCB]
      · rw [set_ne _ _ ha]
    have hptr : ∀ a, ((h1.set q ⟨(h1.mem q).ptr, nu⟩).mem a).ptr = (h.mem a).ptr := by
      intro a
      by_cases ha : a = q
      · rw [ha, set_same, h1ptr]
      · rw [set_ne _ _ ha, h1ptr]
    have hmem : ∀ a, a ≠ C.addr → a ≠ q → (h1.set q ⟨(h1.mem q).ptr, nu⟩).mem a = h.mem a := by
      intro a h1' h2'
      rw [set_ne _ _ h2', ← hh1, set_ne _ _ h1']
    have hBq : ∀ c ∈ B, c.addr ≠ C.addr ∧ c.addr ≠ q := by
      intro c hc
      have := hB c hc
      unfold Block.stop at this
      omega
    have hbase1 : (h1.set q ⟨(h1.mem q).ptr, nu⟩).base = h.base := by
      rw [← hh1]
      rfl
    refine ⟨A ++ Y :: ⟨C.addr, rest⟩ :: B, ?_, hbase1, ?_, ?_, ?_⟩
    · refine hf.replace hbase1 ?_ rfl (fun _ => rfl) ?_ ?_ ?_ ?_ ?_ ?_
      · intro c hc
        have := hA c hc
        exact hmem _ (by omega) (by omega)
      · have ht : Trail (fun a => (h.mem a).ptr) ((Y :: C :: B).map Block.addr) h.base := by
          have := hf.trail
          rw [map_append, Trail.append] at this
          exact this.2
        exact Trail.congr ht fun a _ => hptr a
      · refine List.pairwise_cons.mpr
          ⟨fun c hc => ?_, List.pairwise_cons.mpr ⟨fun c hc => ?_, hBsort⟩⟩
        · rcases List.mem_cons.mp hc with rfl | hc
          · exact hYltC
          · exact hYall c (mem_cons_of_mem C hc)
        · have := hB c hc
          unfold Block.stop at this ⊢
          show C.addr + 16 * rest < c.addr
          omega
      · intro c hc
        rcases List.mem_cons.mp hc with rfl | hc
        · exact Nat.le_refl _
        · rcases List.mem_cons.mp hc with rfl | hc
          · show Y.addr ≤ C.addr
            omega
          · have := hB c hc
            unfold Block.stop at this
            omega
      · intro c hc
        rcases List.mem_cons.mp hc with rfl | hc
        · show ((h1.set q _).mem c.addr).size = _
          rw [hmem _ (by omega) (by omega), hYs]
        · rcases List.mem_cons.mp hc with rfl | hc
          · rw [set_ne _ _ (Ne.symm hqC), ← hh1, set_same]
          · show ((h1.set q _).mem c.addr).size = _
            rw [hmem _ (hBq c hc).1 (hBq c hc).2]
            exact hf.size c (hBm c hc)
      · intro c hc hne
        rcases List.mem_cons.mp hc with rfl | hc
        · exact hf.pos c hYm hne
        · rcases List.mem_cons.mp hc with rfl | hc
          · exact hrpos
          · exact hf.pos c (hBm c hc) hne
      · exact List.mem_map.mpr ⟨Y, by simp, rfl⟩
    · have hC : C.units = (⟨C.addr, rest⟩ : Block).units ++ (⟨q, nu⟩ : Block).units := by
        rw [← hq, ← Block.units_add]
        rw [show rest + nu = C.size by omega]
      simp only [flatMap_append, flatMap_cons, append_assoc, hC]
      exact ((List.perm_append_comm.append_left _).append_left _).append_left _
    · show ((h1.set q _).mem q).size = nu
      rw [set_same]
    · intro a ha haq
      refine hmem a ?_ haq
      rintro rfl
      exact ha (List.mem_map.mpr ⟨C, hCm, rfl⟩)

end Xv6.Umalloc
