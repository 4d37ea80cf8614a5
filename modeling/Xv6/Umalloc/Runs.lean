/-
  Runs of `malloc` and `free`, with the stores of the program to its blocks between them.
-/
import Xv6.Umalloc.Integrity

namespace Xv6.Umalloc

open Lib List Umalloc.Heap

variable {s s' : Sys} {N : List Block} {b c : Block} {nbytes base : ℕ}
  {answers : List (Option Heap.Break)}
  {mem : ℕ → Header}

/-- No call of `malloc` yet. -/
structure Fresh (s : Sys) : Prop where
  freep : s.heap.freep = 0
  live : s.live = []
  regions : s.regions = []

theorem Good.start_eq (hg : Good s N) : s.heap.start = s.heap := by
  refine if_neg fun h0 => ?_
  obtain ⟨c, hc, hca⟩ := List.mem_map.mp hg.list.freep
  have := hg.list.base_le hc
  have := hg.base
  omega

/-- The first `malloc` sets up the list of `base` alone. -/
theorem Fresh.start (hf : Fresh s) (hb : 0 < s.heap.base) :
    Good { s with heap := s.heap.start } [⟨s.heap.base, 0⟩] := by
  have hs : s.heap.start = { s.heap.set s.heap.base ⟨s.heap.base, 0⟩ with freep := s.heap.base } :=
    if_pos hf.freep
  rw [hs, hf.live, hf.regions]
  have hm : (s.heap.set s.heap.base ⟨s.heap.base, 0⟩).mem s.heap.base = ⟨s.heap.base, 0⟩ :=
    set_same _ _ _
  refine ⟨hb, ⟨rfl, ⟨?_, trivial⟩, pairwise_singleton _ _, ?_, ?_, mem_cons_self⟩,
    nofun, .refl _, .nil, nofun⟩
  · show ((s.heap.set s.heap.base _).mem s.heap.base).ptr = s.heap.base
    rw [hm]
  · intro c hc
    rw [List.mem_singleton.mp hc]
    rw [hm]
  · intro c hc hne
    rw [List.mem_singleton.mp hc] at hne
    exact absurd rfl hne

/-- What every run keeps. -/
def Inv (s : Sys) : Prop := 0 < s.heap.base ∧ (Fresh s ∨ ∃ N, Good s N)

/-- `malloc` works on the list that it finds or sets up. -/
theorem Inv.started (hi : Inv s) : ∃ N, Good { s with heap := s.heap.start } N := by
  obtain ⟨hb, hf | ⟨N, hg⟩⟩ := hi
  · exact ⟨_, hf.start hb⟩
  · exact ⟨N, by rw [hg.start_eq]; exact hg⟩

theorem Heap.start_base (h : Heap) : h.start.base = h.base := by
  unfold Heap.start
  split_ifs <;> rfl

theorem Sys.afterMalloc_live (s : Sys) (nbytes : ℕ) {ap : ℕ} {r : Option ℕ × Heap × List Block}
    (hr : r.1 = some ap) :
    ⟨ap - 16, nunits nbytes⟩ ∈ (s.afterMalloc nbytes r).live := by
  unfold Sys.afterMalloc
  dsimp only
  rw [hr]
  exact mem_cons_self

/-- **`malloc` returns**, and the heap is as it should be. -/
theorem Inv.malloc (hi : Inv s) (hl : (Call.malloc nbytes answers).Legal s)
    (hroom : ∀ N a rest, Good { s with heap := s.heap.start } N → answers = some a :: rest →
      (∀ b ∈ N, b.size < Heap.nunits nbytes) →
      s.total + Heap.coreUnits (Heap.nunits nbytes) < 2 ^ 32) :
    ∃ r N, Returns (fun fuel => s.heap.malloc fuel nbytes answers) r ∧
    (∀ ap, r.1 = some ap → 16 ≤ ap) ∧
      Good (s.afterMalloc nbytes r) N := by
  obtain ⟨N, hg⟩ := hi.started
  refine hg.mallocLoop (nunits_pos nbytes) ?_ fun a rest => hroom N a rest hg
  rw [start_base]
  exact hl.2

theorem Good.live_disjoint (hg : Good s N) (hb : b ∈ s.live) (hc : c ∈ s.live) (hne : b ≠ c) :
    b.Disjoint c := by
  have h := hg.all_apart
  rw [flatMap_append] at h
  have h := (List.pairwise_flatMap.mp (List.pairwise_append.mp h).2.1).2
  have hsym : Std.Symm fun a b : Block => ∀ u ∈ a.units, ∀ v ∈ b.units, Apart u v :=
    ⟨fun a b hab u hu v hv => (hab v hv u hu).symm⟩
  exact Block.disjoint_of_apart (hg.live b hb).2 (hg.live c hc).2 (h.forall hb hc hne)

/-- The headers lie outside what the program can store to. -/
theorem Good.store (hg : Good s N)
    (hm : ∀ a, (∀ b ∈ s.live, a ≤ b.addr ∨ b.stop ≤ a) → mem a = s.heap.mem a) :
    Good { s with heap := { s.heap with mem := mem } } N := by
  have hnode : ∀ c ∈ N, mem c.addr = s.heap.mem c.addr := by
    intro c hc
    refine hm c.addr fun b hb => ?_
    by_cases hbase : c.addr = s.heap.base
    · have := hg.live_above hb
      omega
    · have hd := Block.disjoint_of_apart (hg.list.pos c hc hbase) (hg.live b hb).2 fun u hu v hv =>
        hg.cross (List.mem_flatMap.mpr ⟨c, hc, hu⟩) (List.mem_flatMap.mpr ⟨b, hb, hv⟩)
      have hcs : c.addr ≤ c.stop := Nat.le_add_right _ _
      exact hd.imp (fun h => Nat.le_trans hcs h) fun h => h
  have hlive : ∀ c ∈ s.live, mem c.addr = s.heap.mem c.addr := by
    intro c hc
    refine hm c.addr fun b hb => ?_
    by_cases hcb : c = b
    · exact .inl (Nat.le_of_eq (by rw [hcb]))
    · have hcs : c.addr ≤ c.stop := Nat.le_add_right _ _
      exact (hg.live_disjoint hc hb hcb).imp (fun h => Nat.le_trans hcs h) fun h => h
  refine ⟨hg.base, ⟨hg.list.head, ?_, hg.list.sorted, ?_, hg.list.pos, hg.list.freep⟩, ?_, hg.units,
    hg.apart, hg.above⟩
  · refine hg.list.trail.congr fun a ha => ?_
    obtain ⟨c, hc, rfl⟩ := List.mem_map.mp ha
    show (mem c.addr).ptr = _
    rw [hnode c hc]
  · intro c hc
    show (mem c.addr).size = _
    rw [hnode c hc]
    exact hg.list.size c hc
  · intro c hc
    show (mem c.addr).size = _ ∧ _
    rw [hlive c hc]
    exact hg.live c hc

/-- The memory obtained from `sbrk` only grows. -/
theorem Step.total_le (hs : Step s s') : s.total ≤ s'.total := by
  cases hs with
  | call c fuel hl hc =>
    cases c with
    | malloc nbytes answers =>
      obtain ⟨r, _, rfl⟩ := Option.map_eq_some_iff.mp hc
      show _ ≤ ((r.2.2 ++ s.regions).map Block.size).sum
      rw [map_append, sum_append]
      exact Nat.le_add_left _ _
    | free b =>
      obtain ⟨h', _, rfl⟩ := Option.map_eq_some_iff.mp hc
      exact Nat.le_refl _
  | store mem hm => exact Nat.le_refl _

theorem Inv.step (hi : Inv s) (hs : Step s s') (htotal : s'.total < 2 ^ 32) : Inv s' := by
  have hle := hs.total_le
  cases hs with
  | call c fuel hl hc =>
    cases c with
    | malloc nbytes answers =>
      obtain ⟨r, hr, rfl⟩ := Option.map_eq_some_iff.mp hc
      obtain ⟨r', N, hret, _, hg⟩ := hi.malloc hl fun N a rest hgs hans hsmall => by
        subst hans
        have := hgs.new_le hsmall hr
        unfold Sys.total at htotal ⊢
        change ((r.2.2 ++ s.regions).map Block.size).sum < 2 ^ 32 at htotal
        rw [map_append, sum_append] at htotal
        omega
      obtain rfl := ((malloc_mono s.heap nbytes answers).returns fuel hr).unique hret
      exact ⟨hg.base, .inr ⟨N, hg⟩⟩
    | free b =>
      obtain ⟨h', hr, rfl⟩ := Option.map_eq_some_iff.mp hc
      obtain ⟨_, hf | ⟨N, hg⟩⟩ := hi
      · have hb : b ∈ s.live := hl
        rw [hf.live] at hb
        cases hb
      · obtain ⟨h'', N', hret, hg', _⟩ := hg.free hl (Nat.lt_of_le_of_lt hle htotal)
        obtain rfl := ((free_mono s.heap (b.addr + 16)).returns fuel hr).unique hret
        exact ⟨hg'.base, .inr ⟨N', hg'⟩⟩
  | store mem hm =>
    obtain ⟨hb, hf | ⟨N, hg⟩⟩ := hi
    · exact ⟨hb, .inl ⟨hf.freep, hf.live, hf.regions⟩⟩
    · exact ⟨hb, .inr ⟨N, hg.store hm⟩⟩

theorem Inv.of_run (hbase : 0 < base) (hrun : Relation.ReflTransGen Step (Sys.init base mem) s)
    (htotal : s.total < 2 ^ 32) : Inv s := by
  induction hrun with
  | refl => exact ⟨hbase, .inl ⟨rfl, rfl, rfl⟩⟩
  | tail _ hs ih => exact (ih (Nat.lt_of_le_of_lt hs.total_le htotal)).step hs htotal

/-! ## Integrity -/

/-- The free list is circular and sorted from `base` on, no two of its blocks are adjacent, and
    free and live blocks are disjoint and cover the regions. -/
structure Intact (s : Sys) (free : List Block) : Prop where
  circular : Trail (fun a => (s.heap.mem a).ptr) (s.heap.base :: free.map Block.addr) s.heap.base
  freep : s.heap.freep ∈ s.heap.base :: free.map Block.addr
  sorted : (s.heap.base :: free.map Block.addr).Pairwise (· < ·)
  coalesced : free.Pairwise fun a b => a.stop < b.addr
  size : ∀ b ∈ free ++ s.live, (s.heap.mem b.addr).size = b.size ∧ 0 < b.size
  disjoint : (free ++ s.live).Pairwise Block.Disjoint
  cover : ∀ x, (∃ b ∈ free ++ s.live, b.addr ≤ x ∧ x < b.stop) ↔ ∃ r ∈ s.regions, r.addr ≤ x ∧
    x < r.stop

theorem exists_byte (l : List Block) (x : ℕ) :
    (∃ b ∈ l, b.addr ≤ x ∧ x < b.stop) ↔ ∃ u ∈ l.flatMap Block.units, u ≤ x ∧ x < u + 16 := by
  simp only [Block.byte_iff, mem_flatMap]
  constructor
  · rintro ⟨b, hb, u, hu, hx⟩
    exact ⟨u, ⟨b, hb, hu⟩, hx⟩
  · rintro ⟨u, ⟨b, hb, hu⟩, hx⟩
    exact ⟨b, hb, u, hu, hx⟩

theorem Good.intact (hg : Good s N) : ∃ free, Intact s free := by
  obtain ⟨free, rfl⟩ := hg.list.cons
  have hsort := List.pairwise_cons.mp hg.list.sorted
  have hsize : ∀ b ∈ free ++ s.live, (s.heap.mem b.addr).size = b.size ∧ 0 < b.size := by
    intro b hb
    rcases List.mem_append.mp hb with hb | hb
    · have hlt : s.heap.base < b.addr := hsort.1 b hb
      exact ⟨hg.list.size b (mem_cons_of_mem _ hb),
        hg.list.pos b (mem_cons_of_mem _ hb) (Nat.ne_of_gt hlt)⟩
    · exact hg.live b hb
  refine ⟨free, hg.list.trail, hg.list.freep, ?_, hsort.2, hsize, ?_, ?_⟩
  · refine List.pairwise_cons.mpr ⟨fun a ha => ?_, List.pairwise_map.mpr (hsort.2.imp ?_)⟩
    · obtain ⟨c, hc, rfl⟩ := List.mem_map.mp ha
      exact hsort.1 c hc
    · intro a b hab
      exact Nat.lt_of_le_of_lt (Nat.le_add_right _ _) hab
  · have h : ((free ++ s.live).flatMap Block.units).Pairwise Apart := hg.all_apart
    refine (List.pairwise_flatMap.mp h).2.imp_of_mem ?_
    intro a b ha hb hab
    exact Block.disjoint_of_apart (hsize a ha).2 (hsize b hb).2 hab
  · intro x
    rw [exists_byte, exists_byte]
    have hperm : ((free ++ s.live).flatMap Block.units).Perm (s.regions.flatMap Block.units) :=
      hg.units
    constructor
    · rintro ⟨u, hu, hx⟩
      exact ⟨u, hperm.mem_iff.mp hu, hx⟩
    · rintro ⟨u, hu, hx⟩
      exact ⟨u, hperm.mem_iff.mpr hu, hx⟩

/-- What `malloc` returns has room, and lies at a multiple of 16 bytes in its region. -/
theorem Good.aligned (hg : Good s N) (hb : b ∈ s.live) :
    ∃ r ∈ s.regions, ∃ i < r.size, b.addr = r.addr + 16 * i := by
  have hu : b.addr ∈ s.regions.flatMap Block.units := by
    refine hg.units.mem_iff.mp ?_
    rw [flatMap_append]
    exact mem_append_right _ (hg.live_unit hb)
  obtain ⟨r, hr, hu⟩ := List.mem_flatMap.mp hu
  exact ⟨r, hr, Block.mem_units.mp hu⟩

/-- **The user heap is intact** in every run of legal calls and stores, while the memory from
    `sbrk` has fewer than 2^32 units, with what a `malloc` that finds no block adds. `malloc` and
    `free` return; a block from `malloc` has room for
    the bytes asked for and lies at a multiple of 16 bytes in its region. -/
theorem user_heap_intact (hbase : 0 < base)
    (hrun : Relation.ReflTransGen Step (Sys.init base mem) s)
    (htotal : s.total < 2 ^ 32) :
    (Fresh s ∨ ∃ free, Intact s free) ∧
    (∀ nbytes answers, (Call.malloc nbytes answers).Legal s →
      (∀ N x rest, Good { s with heap := s.heap.start } N → answers = some x :: rest →
        (∀ b ∈ N, b.size < Heap.nunits nbytes) →
        s.total + Heap.coreUnits (Heap.nunits nbytes) < 2 ^ 32) →
      ∃ r, Returns (fun fuel => s.heap.malloc fuel nbytes answers) r ∧
        (∃ free, Intact (s.afterMalloc nbytes r) free) ∧
        ∀ ap, r.1 = some ap → ∃ b ∈ (s.afterMalloc nbytes r).live, ap = b.addr + 16 ∧
        ap + nbytes ≤ b.stop ∧
          ∃ g ∈ (s.afterMalloc nbytes r).regions, ∃ i < g.size, b.addr = g.addr + 16 * i) ∧
    ∀ b ∈ s.live, ∃ h', Returns (fun fuel => s.heap.free fuel (b.addr + 16)) h' ∧
      ∃ free, Intact { s with heap := h', live := s.live.erase b } free := by
  have hi := Inv.of_run hbase hrun htotal
  refine ⟨hi.2.imp_right fun ⟨N, hg⟩ => hg.intact, ?_, ?_⟩
  · intro nbytes answers hl hroom
    obtain ⟨r, N, hret, hap, hg⟩ := hi.malloc hl hroom
    refine ⟨r, hret, hg.intact, fun ap hr => ?_⟩
    have hge := hap ap hr
    have hmem := s.afterMalloc_live nbytes hr
    refine ⟨_, hmem, ?_, ?_, hg.aligned hmem⟩
    · show ap = ap - 16 + 16
      omega
    · unfold Block.stop Heap.nunits
      show ap + nbytes ≤ ap - 16 + 16 * ((nbytes + 15) / 16 + 1)
      omega
  · intro b hb
    obtain ⟨_, hf | ⟨N, hg⟩⟩ := hi
    · rw [hf.live] at hb
      cases hb
    · obtain ⟨h', N', hret, hg', _⟩ := hg.free hb htotal
      exact ⟨h', hret, hg'.intact⟩

/-! ## Runs that can be computed -/

/-- A list of calls, each of them legal. -/
def Sys.calls (fuel : ℕ) : List Call → Sys → Option Sys
  | [], s => some s
  | c :: cs, s => if c.Legal s then (s.call fuel c).bind (Sys.calls fuel cs) else none

theorem Sys.calls_run {fuel : ℕ} {cs : List Call} (h : Sys.calls fuel cs s = some s') :
    Relation.ReflTransGen Step s s' := by
  induction cs generalizing s with
  | nil =>
    cases h
    exact .refl
  | cons c cs ih =>
    unfold Sys.calls at h
    split_ifs at h with hl
    obtain ⟨s1, hc, hcs⟩ := Option.bind_eq_some_iff.mp h
    exact .head (.call c fuel hl hc) (ih hcs)

/-- Three blocks are allocated and freed: the second one comes to stand alone, the first one joins
    it from above, and the third one joins what lies on both sides. -/
def joinCalls : List Call :=
  [.malloc 100 [some ⟨48, 48 + 16 * 4096⟩], .malloc 200 [], .malloc 300 [], .free ⟨65232, 14⟩,
    .free ⟨65456, 8⟩, .free ⟨64912, 20⟩]

theorem user_heap_intact_joined :
    ∃ s, Sys.calls 10 joinCalls (Sys.init 16 fun _ => ⟨0, 0⟩) = some s ∧
    s.live = [] ∧ s.heap.mem 48 = ⟨16, 4096⟩ ∧ s.total = 4096 ∧
    (Fresh s ∨ ∃ free, Intact s free) := by
  have h : ((Sys.calls 10 joinCalls (Sys.init 16 fun _ => ⟨0, 0⟩)).map fun s =>
      (s.live, s.heap.mem 48, s.total)) = some ([], ⟨16, 4096⟩, 4096) := by decide +kernel
  obtain ⟨s, hs, hv⟩ := Option.map_eq_some_iff.mp h
  simp only [Prod.mk.injEq] at hv
  obtain ⟨hlive, hmem, htotal⟩ := hv
  exact ⟨s, hs, hlive, hmem, htotal,
    (user_heap_intact (by decide) (Sys.calls_run hs) (by rw [htotal]; decide)).1⟩

/-- The most that `malloc` can ask `sbrk` for, in units. -/
def chunkUnits : ℕ := 2 ^ 27 - 1

/-- 33 blocks of that size, adjacent to each other, are allocated and then freed from the lowest
    on. -/
def wrapCalls : List Call :=
  ((List.range 33).map fun i => .malloc (16 * (chunkUnits - 1))
      [some ⟨32 + i * (16 * chunkUnits), 32 + i * (16 * chunkUnits) + 16 * chunkUnits⟩]) ++
    (List.range 33).map fun i => .free ⟨32 + i * (16 * chunkUnits), chunkUnits⟩

/-- They are joined to one block, whose size has wrapped: most of it is lost. -/
theorem user_heap_size_wraps : ∃ s, Relation.ReflTransGen Step (Sys.init 16 fun _ => ⟨0, 0⟩) s ∧
    ¬ (Fresh s ∨ ∃ free, Intact s free) := by
  have h : ((Sys.calls 40 wrapCalls (Sys.init 16 fun _ => ⟨0, 0⟩)).map fun s =>
      (s.heap.base, s.heap.mem 16, s.heap.mem 32, s.live, s.regions.head?)) =
      some (16, ⟨32, 0⟩, ⟨16, 2 ^ 27 - 33⟩, [],
        some ⟨32 + 32 * (16 * chunkUnits), chunkUnits⟩) := by
    decide +kernel
  obtain ⟨s, hs, hv⟩ := Option.map_eq_some_iff.mp h
  simp only [Prod.mk.injEq] at hv
  obtain ⟨hbase, h16, h32, hlive, hlast⟩ := hv
  refine ⟨s, Sys.calls_run hs, ?_⟩
  rintro (hf | ⟨free, hi⟩)
  · rw [hf.regions] at hlast
    cases hlast
  -- the list is `base` and one block
  have hcirc := hi.circular
  have hsorted := hi.sorted
  rw [hbase] at hcirc hsorted
  cases free with
  | nil =>
    have hnext : (s.heap.mem 16).ptr = 16 := hcirc.1
    rw [h16] at hnext
    cases hnext
  | cons b rest =>
    have hb : b.addr = 32 := by
      have hnext : (s.heap.mem 16).ptr = b.addr := hcirc.1
      rw [h16] at hnext
      exact hnext.symm
    have hrest : rest = [] := by
      have hnext : (s.heap.mem b.addr).ptr = (rest.map Block.addr).headD 16 := hcirc.2.1
      rw [hb, h32] at hnext
      cases rest with
      | nil => rfl
      | cons c rest =>
        have hlt := (List.pairwise_cons.mp hsorted).1 c.addr (by simp)
        have hc : 16 = c.addr := hnext
        omega
    have hsize : b.size = 2 ^ 27 - 33 := by
      have := (hi.size b (by simp)).1
      rw [hb, h32] at this
      exact this.symm
    -- the start of the last region is in no block
    have hcover := (hi.cover (32 + 32 * (16 * chunkUnits))).mpr
      ⟨_, mem_of_mem_head? hlast, Nat.le_refl _, by decide⟩
    rw [hrest, hlive] at hcover
    obtain ⟨c, hc, _, hstop⟩ := hcover
    obtain rfl : c = b := by simpa using hc
    unfold Block.stop at hstop
    rw [hb, hsize] at hstop
    exact absurd hstop (by decide)

end Xv6.Umalloc
