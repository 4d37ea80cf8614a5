/-
  The free list as a list of blocks.

  The list starts with `base`, which counts as a block of no units, and is sorted by address with a
  gap between any two blocks. `free` puts a block into its place and joins it with its neighbours;
  `malloc` walks round from `freep` to the first block that is large enough.
-/
import Xv6.Umalloc.Model

namespace Xv6.Umalloc

open Lib Function List Umalloc.Heap

variable {h : Heap} {N A B : List Block} {b c p : Block} {a u bp nu : ℕ}

/-! ## Units -/

namespace Block

theorem units_add (a m n : ℕ) :
    (⟨a, m + n⟩ : Block).units = (⟨a, m⟩ : Block).units ++ (⟨a + 16 * m, n⟩ : Block).units := by
  unfold units
  rw [range_add, map_append, map_map]
  congr 1
  refine map_congr_left fun i _ => ?_
  show a + 16 * (m + i) = a + 16 * m + 16 * i
  omega

theorem mem_units : u ∈ b.units ↔ ∃ i < b.size, u = b.addr + 16 * i := by
  unfold units
  rw [mem_map]
  constructor
  · rintro ⟨i, hi, rfl⟩
    exact ⟨i, List.mem_range.mp hi, rfl⟩
  · rintro ⟨i, hi, rfl⟩
    exact ⟨i, List.mem_range.mpr hi, rfl⟩

theorem length_units (b : Block) : b.units.length = b.size := by
  unfold units
  rw [length_map, length_range]

theorem addr_mem_units (hb : 0 < b.size) : b.addr ∈ b.units :=
  mem_units.mpr ⟨0, hb, rfl⟩

theorem length_flatMap_units (l : List Block) : (l.flatMap units).length = (l.map size).sum := by
  induction l with
  | nil => rfl
  | cons b l ih => rw [flatMap_cons, length_append, length_units, ih, map_cons, sum_cons]

end Block

/-! ## The list -/

/-- `N` is the free list of `h`, from `base` on. -/
structure FreeList (h : Heap) (N : List Block) : Prop where
  head : N.head? = some ⟨h.base, 0⟩
  trail : Trail (fun a => (h.mem a).ptr) (N.map Block.addr) h.base
  sorted : N.Pairwise fun a b => a.stop < b.addr
  size : ∀ b ∈ N, (h.mem b.addr).size = b.size
  pos : ∀ b ∈ N, b.addr ≠ h.base → 0 < b.size
  freep : h.freep ∈ N.map Block.addr

namespace FreeList

theorem cons (hf : FreeList h N) : ∃ l, N = ⟨h.base, 0⟩ :: l := by
  have hh := hf.head
  cases N with
  | nil => cases hh
  | cons b l => exact ⟨l, by rw [Option.some.inj hh]⟩

theorem circular (hf : FreeList h N) :
    ∃ l, N.map Block.addr = h.base :: l ∧ Trail (fun a => (h.mem a).ptr) (h.base :: l) h.base := by
  obtain ⟨l, rfl⟩ := hf.cons
  exact ⟨l.map Block.addr, rfl, hf.trail⟩

theorem nodup (hf : FreeList h N) : (N.map Block.addr).Nodup := by
  refine List.pairwise_map.mpr (hf.sorted.imp ?_)
  intro a b hab
  unfold Block.stop at hab
  omega

theorem base_le (hf : FreeList h N) (hb : b ∈ N) : h.base ≤ b.addr := by
  obtain ⟨l, rfl⟩ := hf.cons
  rcases List.mem_cons.mp hb with rfl | hb
  · exact Nat.le_refl _
  · exact Nat.le_of_lt ((List.pairwise_cons.mp hf.sorted).1 b hb)

/-- Only `base` itself is at its address. -/
theorem base_size (hf : FreeList h N) (hb : b ∈ N) (ha : b.addr = h.base) : b = ⟨h.base, 0⟩ := by
  obtain ⟨l, rfl⟩ := hf.cons
  rcases List.mem_cons.mp hb with rfl | hb
  · rfl
  · have hlt : h.base < b.addr := (List.pairwise_cons.mp hf.sorted).1 b hb
    omega

/-- A node and what follows it. -/
theorem split (hf : FreeList h (A ++ p :: B)) :
    Trail (fun a => (h.mem a).ptr) (A.map Block.addr) p.addr ∧
      (h.mem p.addr).ptr = (B.map Block.addr).headD h.base ∧
      Trail (fun a => (h.mem a).ptr) (B.map Block.addr) h.base := by
  have ht := hf.trail
  rw [map_append, Trail.append] at ht
  exact ⟨ht.1, ht.2.1, ht.2.2⟩

theorem lt_next (hf : FreeList h (A ++ p :: B)) (hc : c ∈ B) : p.stop < c.addr :=
  (List.pairwise_cons.mp (List.pairwise_append.mp hf.sorted).2.1).1 c hc

theorem lt_of_before (hf : FreeList h (A ++ p :: B)) (hc : c ∈ A) : c.stop < p.addr :=
  (List.pairwise_append.mp hf.sorted).2.2 c hc p mem_cons_self

/-! ## The search of `free` -/

theorem exists_stops :
    ∀ (B : List Block) (p : Block), Trail (fun a => (h.mem a).ptr) ((p :: B).map Block.addr)
      h.base →
      h.base ≤ p.addr → p.addr < bp → (∀ c ∈ B, c.addr ≠ bp ∧ h.base ≤ c.addr) →
      ∃ x ∈ (p :: B).map Block.addr, h.Stops bp x := by
  intro B
  induction B with
  | nil =>
    intro p ht hp hlt _
    have hn : (h.mem p.addr).ptr = h.base := ht.1
    exact ⟨p.addr, mem_cons_self, .inr ⟨by rw [hn]; exact hp, .inl hlt⟩⟩
  | cons c B ih =>
    intro p ht hp hlt hB
    have hn : (h.mem p.addr).ptr = c.addr := ht.1
    obtain ⟨hne, hc⟩ := hB c mem_cons_self
    by_cases hbc : bp < c.addr
    · exact ⟨p.addr, mem_cons_self, .inl ⟨hlt, by rw [hn]; exact hbc⟩⟩
    · obtain ⟨x, hx, hs⟩ := ih c ht.2 hc (by omega) fun d hd => hB d (mem_cons_of_mem c hd)
      exact ⟨x, mem_cons_of_mem _ hx, hs⟩

/-- Where the search ends, the block belongs. -/
theorem split_of_stops (hf : FreeList h N) (hbase : h.base < bp) (ha : a ∈ N.map Block.addr)
    (hs : h.Stops bp a) : ∃ A p B, N = A ++ p :: B ∧ p.addr = a ∧ a < bp ∧
    ∀ c ∈ B, bp < c.addr := by
  obtain ⟨p, hp, rfl⟩ := List.mem_map.mp ha
  obtain ⟨A, B, rfl⟩ := append_of_mem hp
  obtain ⟨_, hnext, _⟩ := hf.split
  cases B with
  | nil =>
    have hnext : (h.mem p.addr).ptr = h.base := hnext
    unfold Heap.Stops at hs
    rw [hnext] at hs
    exact ⟨A, p, [], rfl, rfl, by omega, nofun⟩
  | cons d B =>
    have hnext : (h.mem p.addr).ptr = d.addr := hnext
    have hpd := hf.lt_next (c := d) mem_cons_self
    unfold Heap.Stops at hs
    rw [hnext] at hs
    unfold Block.stop at hpd
    have hlt : p.addr < bp ∧ bp < d.addr := by omega
    refine ⟨A, p, d :: B, rfl, rfl, hlt.1, fun c hc => ?_⟩
    rcases List.mem_cons.mp hc with rfl | hc
    · exact hlt.2
    · have hs := (List.pairwise_append.mp hf.sorted).2.1
      have hdc := (List.pairwise_cons.mp (List.pairwise_cons.mp hs).2).1 c hc
      unfold Block.stop at hdc
      omega

/-- **The search of `free` ends**, at the node after which the block belongs. -/
theorem search (hf : FreeList h N) (hbase : h.base < bp) (hne : ∀ c ∈ N, c.addr ≠ bp) :
    ∃ A p B, N = A ++ p :: B ∧ p.addr < bp ∧ (∀ c ∈ B, bp < c.addr) ∧
      Returns (fun fuel => seek (fun p => (h.mem p).ptr) (h.Stops bp) fuel h.freep) p.addr := by
  obtain ⟨l, hl⟩ := hf.cons
  have hs : ∃ x ∈ N.map Block.addr, h.Stops bp x := by
    have ht := hf.trail
    rw [hl] at ht ⊢
    refine exists_stops l _ ht (Nat.le_refl _) hbase fun c hc => ?_
    have hc : c ∈ N := by
      rw [hl]
      exact mem_cons_of_mem _ hc
    exact ⟨hne c hc, hf.base_le hc⟩
  obtain ⟨l', hl', ht⟩ := hf.circular
  have hn := hf.nodup
  have hq := hf.freep
  rw [hl'] at hs hn hq
  obtain ⟨x, hx, hstop, hret⟩ := seek_circular ht hn hq hs
  rw [← hl'] at hx
  obtain ⟨A, p, B, hN, rfl, hlt, hB⟩ := hf.split_of_stops hbase hx hstop
  exact ⟨A, p, B, hN, hlt, hB, hret⟩

/-! ## Joining -/

/-- `b` and the blocks `B` after it have become `x` and `rest`. -/
structure Joined (b : Block) (B : List Block) (x : Block) (rest : List Block) : Prop where
  addr : x.addr = b.addr
  le : b.size ≤ x.size
  sum : x.size + (rest.map Block.size).sum = b.size + (B.map Block.size).sum
  units : (x :: rest).flatMap Block.units = (b :: B).flatMap Block.units
  suffix : rest <:+ B
  gap : ∀ c ∈ rest, x.stop < c.addr

theorem joinNext_eq (hf : FreeList h (A ++ p :: B)) (hb : (h.mem b.addr).size = b.size)
    (hbase : h.base < b.addr) (hB : ∀ c ∈ B, b.stop ≤ c.addr)
    (hsum : b.size + (B.map Block.size).sum < 2 ^ 32) : ∃ x rest, Joined b B x rest ∧
      h.joinNext b.addr p.addr = h.set b.addr ⟨(rest.map Block.addr).headD h.base, x.size⟩ := by
  obtain ⟨_, hnext, htail⟩ := hf.split
  have hstop : b.stop = b.addr + 16 * b.size := rfl
  unfold Heap.joinNext
  rw [hnext, hb]
  dsimp only
  cases B with
  | nil =>
    have hno : ¬ b.addr + 16 * b.size = h.base := by omega
    refine ⟨b, [], ⟨rfl, Nat.le_refl _, rfl, rfl, suffix_refl _, nofun⟩, ?_⟩
    exact if_neg hno
  | cons c B =>
    have hhead : ((c :: B).map Block.addr).headD h.base = c.addr := rfl
    rw [hhead]
    have hsort := (List.pairwise_cons.mp (List.pairwise_append.mp hf.sorted).2.1).2
    have hcB := (List.pairwise_cons.mp hsort).1
    by_cases hj : b.addr + 16 * b.size = c.addr
    · have hc : (h.mem c.addr).ptr = (B.map Block.addr).headD h.base := htail.1
      have hcs : (h.mem c.addr).size = c.size := hf.size c (by simp)
      rw [map_cons, sum_cons] at hsum
      refine ⟨⟨b.addr, b.size + c.size⟩, B,
        ⟨rfl, Nat.le_add_right _ _, ?_, ?_, suffix_cons c B, ?_⟩, ?_⟩
      · rw [map_cons, sum_cons]
        show b.size + c.size + _ = _
        omega
      · rw [flatMap_cons, Block.units_add, hj, flatMap_cons, flatMap_cons, append_assoc]
      · intro d hd
        have hlt := hcB d hd
        unfold Block.stop at hlt ⊢
        show b.addr + 16 * (b.size + c.size) < d.addr
        omega
      · rw [if_pos hj, hc, hcs, Nat.mod_eq_of_lt (by omega)]
    · refine ⟨b, c :: B, ⟨rfl, Nat.le_refl _, rfl, rfl, suffix_refl _, ?_⟩, ?_⟩
      · have hbc : b.stop < c.addr := by
          have := hB c mem_cons_self
          omega
        intro d hd
        rcases List.mem_cons.mp hd with rfl | hd
        · exact hbc
        · have hlt := hcB d hd
          unfold Block.stop at hlt
          omega
      · rw [if_neg hj]
        rfl

/-- The node `p` and what follows it are replaced by `M`, which starts at the same address. -/
theorem replace {h' : Heap} {M : List Block} (hf : FreeList h (A ++ p :: B))
    (hbase : h'.base = h.base)
    (hA : ∀ c ∈ A, h'.mem c.addr = h.mem c.addr)
    (hM : M.head?.map Block.addr = some p.addr) (hp : A = [] → M.head? = some p)
    (ht : Trail (fun a => (h'.mem a).ptr) (M.map Block.addr) h.base)
    (hs : M.Pairwise fun a b => a.stop < b.addr) (hge : ∀ c ∈ M, p.addr ≤ c.addr)
    (hsize : ∀ c ∈ M, (h'.mem c.addr).size = c.size) (hpos : ∀ c ∈ M, c.addr ≠ h.base → 0 < c.size)
    (hfreep : h'.freep ∈ (A ++ M).map Block.addr) : FreeList h' (A ++ M) where
  head := by
    have hh := hf.head
    rw [hbase]
    cases A with
    | nil =>
      rw [nil_append, hp rfl]
      exact hh
    | cons a A => exact hh
  trail := by
    rw [map_append, Trail.append, hbase]
    refine ⟨?_, ht⟩
    have hd : (M.map Block.addr).headD h.base = p.addr := by
      cases M with
      | nil => cases hM
      | cons c M => exact Option.some.inj hM
    rw [hd]
    refine hf.split.1.congr fun x hx => ?_
    obtain ⟨c, hc, rfl⟩ := List.mem_map.mp hx
    show (h'.mem c.addr).ptr = (h.mem c.addr).ptr
    rw [hA c hc]
  sorted := by
    refine List.pairwise_append.mpr ⟨(List.pairwise_append.mp hf.sorted).1, hs, fun c hc d hd => ?_⟩
    exact Nat.lt_of_lt_of_le (hf.lt_of_before hc) (hge d hd)
  size c hc := by
    rcases List.mem_append.mp hc with hc | hc
    · rw [hA c hc]
      exact hf.size c (mem_append_left _ hc)
    · exact hsize c hc
  pos c hc hne := by
    rw [hbase] at hne
    rcases List.mem_append.mp hc with hc | hc
    · exact hf.pos c (mem_append_left _ hc) hne
    · exact hpos c hc hne
  freep := hfreep

end FreeList

theorem Heap.set_same (h : Heap) (a : ℕ) (x : Header) : (h.set a x).mem a = x := by
  exact update_self a x h.mem

theorem Heap.set_ne (h : Heap) {a c : ℕ} (x : Header) (hc : c ≠ a) :
    (h.set a x).mem c = h.mem c := by
  exact update_of_ne hc x h.mem

/-- The heap after both joins: the headers of `b` and of `p` are written. -/
def Heap.put (h : Heap) (b x : Block) (rest : List Block) (p : ℕ) (y : Header) : Heap :=
  { (h.set b.addr ⟨(rest.map Block.addr).headD h.base, x.size⟩).set p y with freep := p }

section Put

variable {x : Block} {rest : List Block} {y : Header}

theorem Heap.put_prev : (h.put b x rest a y).mem a = y := set_same _ _ _

theorem Heap.put_block (hne : b.addr ≠ a) :
    (h.put b x rest a y).mem b.addr = ⟨(rest.map Block.addr).headD h.base, x.size⟩ :=
  (set_ne _ _ hne).trans (set_same _ _ _)

theorem Heap.put_other {c : ℕ} (ha : c ≠ a) (hb : c ≠ b.addr) :
    (h.put b x rest a y).mem c = h.mem c :=
  (set_ne _ _ ha).trans (set_ne _ _ hb)

variable (hf : FreeList h (A ++ p :: B)) (hj : FreeList.Joined b B x rest) (hlt : p.addr < b.addr)
  (hB : ∀ c ∈ B, b.addr < c.addr)

include hf hlt in
theorem FreeList.put_before (hc : c ∈ A) : (h.put b x rest p.addr y).mem c.addr = h.mem c.addr := by
  have hcp := hf.lt_of_before hc
  unfold Block.stop at hcp
  exact put_other (by omega) (by omega)

include hj hlt hB in
theorem FreeList.put_rest (hc : c ∈ rest) :
    (h.put b x rest p.addr y).mem c.addr = h.mem c.addr := by
  have hcb := hB c (hj.suffix.subset hc)
  exact put_other (by omega) (by omega)

include hf hj hlt hB in
theorem FreeList.put_rest_trail :
    Trail (fun a => ((h.put b x rest p.addr y).mem a).ptr) (rest.map Block.addr) h.base := by
  obtain ⟨pre, hpre⟩ := hj.suffix
  have ht := hf.split.2.2
  rw [← hpre, map_append, Trail.append] at ht
  refine ht.2.congr fun a ha => ?_
  obtain ⟨c, hc, rfl⟩ := List.mem_map.mp ha
  rw [FreeList.put_rest hj hlt hB hc]

include hf hj in
theorem FreeList.rest_sorted : rest.Pairwise fun a b => a.stop < b.addr :=
  (List.pairwise_cons.mp (List.pairwise_append.mp hf.sorted).2.1).2.sublist hj.suffix.sublist

include hj in
theorem FreeList.mem_of_rest (hc : c ∈ rest) : c ∈ A ++ p :: B :=
  mem_append_right _ (mem_cons_of_mem p (hj.suffix.subset hc))

include hf hj hlt hB in
theorem FreeList.put_rest_size (hc : c ∈ rest) :
    ((h.put b x rest p.addr y).mem c.addr).size = c.size := by
  rw [FreeList.put_rest hj hlt hB hc]
  exact hf.size c (FreeList.mem_of_rest hj hc)

include hf hj hlt hB in
/-- `p` and `x` are joined. -/
theorem FreeList.put_join (hpx : p.stop = b.addr) (hx : 0 < x.size) :
    FreeList (h.put b x rest p.addr ⟨(rest.map Block.addr).headD h.base, p.size + x.size⟩)
      (A ++ ⟨p.addr, p.size + x.size⟩ :: rest) := by
  have hA : A ≠ [] := by
    rintro rfl
    have hp : p = ⟨h.base, 0⟩ := Option.some.inj hf.head
    rw [hp] at hpx hlt
    have hpx : h.base + 16 * 0 = b.addr := hpx
    have hlt : h.base < b.addr := hlt
    omega
  refine hf.replace rfl (fun c hc => FreeList.put_before hf hlt hc) rfl (fun h0 => absurd h0 hA)
    ⟨?_, FreeList.put_rest_trail hf hj hlt hB⟩ ?_ ?_ ?_ ?_ ?_
  · dsimp only
    rw [put_prev]
  · refine List.pairwise_cons.mpr ⟨fun c hc => ?_, FreeList.rest_sorted hf hj⟩
    have hgap := hj.gap c hc
    have hxa := hj.addr
    unfold Block.stop at hgap hpx ⊢
    show p.addr + 16 * (p.size + x.size) < c.addr
    omega
  · intro c hc
    rcases List.mem_cons.mp hc with rfl | hc
    · exact Nat.le_refl _
    · have := hB c (hj.suffix.subset hc)
      omega
  · intro c hc
    rcases List.mem_cons.mp hc with rfl | hc
    · rw [put_prev]
    · exact FreeList.put_rest_size hf hj hlt hB hc
  · intro c hc hne
    rcases List.mem_cons.mp hc with rfl | hc
    · exact Nat.add_pos_right _ hx
    · exact hf.pos c (FreeList.mem_of_rest hj hc) hne
  · exact List.mem_map.mpr ⟨_, mem_append_right _ mem_cons_self, rfl⟩

include hf hj hlt hB in
/-- `x` comes after `p`. -/
theorem FreeList.put_place (hpx : p.stop < b.addr) (hx : 0 < x.size) :
    FreeList (h.put b x rest p.addr ⟨b.addr, p.size⟩) (A ++ p :: x :: rest) := by
  have hpm : p ∈ A ++ p :: B := mem_append_right _ mem_cons_self
  have hbp : b.addr ≠ p.addr := by omega
  have hxa := hj.addr
  refine hf.replace rfl (fun c hc => FreeList.put_before hf hlt hc) rfl (fun _ => rfl)
    ⟨?_, ?_, FreeList.put_rest_trail hf hj hlt hB⟩ ?_ ?_ ?_ ?_ ?_
  · dsimp only
    rw [put_prev]
    exact hxa.symm
  · dsimp only
    rw [hxa, put_block hbp]
  · refine List.pairwise_cons.mpr
      ⟨fun c hc => ?_, List.pairwise_cons.mpr ⟨hj.gap, FreeList.rest_sorted hf hj⟩⟩
    rcases List.mem_cons.mp hc with rfl | hc
    · rw [hxa]
      exact hpx
    · exact hf.lt_next (hj.suffix.subset hc)
  · intro c hc
    rcases List.mem_cons.mp hc with rfl | hc
    · exact Nat.le_refl _
    · rcases List.mem_cons.mp hc with rfl | hc
      · omega
      · have := hB c (hj.suffix.subset hc)
        omega
  · intro c hc
    rcases List.mem_cons.mp hc with rfl | hc
    · rw [put_prev]
    · rcases List.mem_cons.mp hc with rfl | hc
      · rw [hxa, put_block hbp]
      · exact FreeList.put_rest_size hf hj hlt hB hc
  · intro c hc hne
    rcases List.mem_cons.mp hc with rfl | hc
    · exact hf.pos c hpm hne
    · rcases List.mem_cons.mp hc with rfl | hc
      · exact hx
      · exact hf.pos c (FreeList.mem_of_rest hj hc) hne
  · exact List.mem_map.mpr ⟨p, mem_append_right _ mem_cons_self, rfl⟩

end Put

/-- **`free`** of a block that no block of the list overlaps. -/
theorem FreeList.free (hf : FreeList h N) (hb : (h.mem b.addr).size = b.size) (hpos : 0 < b.size)
    (hbase : h.base < b.addr) (hdisj : ∀ c ∈ N, c.addr ≠ h.base → c.Disjoint b)
    (hsum : b.size + (N.map Block.size).sum < 2 ^ 32) :
    ∃ h' N', Returns (fun fuel => h.free fuel (b.addr + 16)) h' ∧ FreeList h' N' ∧
    h'.base = h.base ∧
      (N'.flatMap Block.units).Perm ((b :: N).flatMap Block.units) ∧ (∃ c ∈ N', b.size ≤ c.size) ∧
      ∀ a, a ≠ b.addr → a ∉ N.map Block.addr → h'.mem a = h.mem a := by
  have hne : ∀ c ∈ N, c.addr ≠ b.addr := by
    intro c hc hcb
    have hcne : c.addr ≠ h.base := by omega
    have hcpos := hf.pos c hc hcne
    have hd := hdisj c hc hcne
    unfold Block.Disjoint Block.stop at hd
    omega
  obtain ⟨A, p, B, rfl, hlt, hB, hret⟩ := hf.search hbase hne
  have hpm : p ∈ A ++ p :: B := mem_append_right _ mem_cons_self
  -- the neighbours do not reach into the block
  have hpb : p.stop ≤ b.addr := by
    by_cases hpbase : p.addr = h.base
    · rw [hf.base_size hpm hpbase]
      show h.base + 16 * 0 ≤ b.addr
      omega
    · have hd := hdisj p hpm hpbase
      unfold Block.Disjoint at hd
      have hbs : b.addr ≤ b.stop := Nat.le_add_right _ _
      omega
  have hbB : ∀ c ∈ B, b.stop ≤ c.addr := by
    intro c hc
    have hbc := hB c hc
    have hd := hdisj c (mem_append_right _ (mem_cons_of_mem p hc)) (by omega)
    unfold Block.Disjoint at hd
    have hcs : c.addr ≤ c.stop := Nat.le_add_right _ _
    omega
  rw [map_append, sum_append, map_cons, sum_cons] at hsum
  obtain ⟨x, rest, hj, hjoin⟩ := hf.joinNext_eq hb hbase hbB (by omega)
  have hxsum := hj.sum
  have hxpos : 0 < x.size := Nat.lt_of_lt_of_le hpos hj.le
  have h1p : (h.joinNext b.addr p.addr).mem p.addr = h.mem p.addr := by
    rw [hjoin, set_ne _ _ (Nat.ne_of_lt hlt)]
  have h1b : (h.joinNext b.addr p.addr).mem b.addr =
      ⟨(rest.map Block.addr).headD h.base, x.size⟩ := by
    rw [hjoin, set_same]
  have hperm : ∀ M : List Block, M.flatMap Block.units = p.units ++
    (x :: rest).flatMap Block.units →
      ((A ++ M).flatMap Block.units).Perm ((b :: (A ++ p :: B)).flatMap Block.units) := by
    intro M hM
    rw [flatMap_append, hM, hj.units]
    simp only [flatMap_cons, flatMap_append]
    refine List.Perm.trans ?_ (perm_append_comm_assoc _ _ _)
    exact (perm_append_comm_assoc _ _ _).append_left _
  have hmem : ∀ (y : Header) (a : ℕ), a ≠ b.addr → a ∉ (A ++ p :: B).map Block.addr →
      (h.put b x rest p.addr y).mem a = h.mem a := by
    intro y a h1 h2
    refine put_other ?_ h1
    rintro rfl
    exact h2 (List.mem_map.mpr ⟨p, hpm, rfl⟩)
  have hret' := hret.map fun q => { (h.joinNext b.addr q).joinPrev b.addr q with freep := q }
  dsimp only at hret'
  unfold Heap.joinPrev at hret'
  rw [h1p, h1b, hf.size p hpm] at hret'
  rcases Nat.eq_or_lt_of_le hpb with hpx | hpx
  · rw [if_pos (show p.addr + 16 * p.size = b.addr from hpx), hjoin] at hret'
    dsimp only at hret'
    rw [Nat.mod_eq_of_lt (show p.size + x.size < 2 ^ 32 by omega)] at hret'
    refine ⟨_, _, hret', FreeList.put_join hf hj hlt hB hpx hxpos, rfl, hperm _ ?_, ?_, hmem _⟩
    · have hxa : p.addr + 16 * p.size = x.addr := hpx.trans hj.addr.symm
      rw [flatMap_cons, Block.units_add, hxa, append_assoc, flatMap_cons]
    · refine ⟨_, mem_append_right _ mem_cons_self, ?_⟩
      exact Nat.le_trans hj.le (Nat.le_add_left _ _)
  · rw [if_neg (show ¬ p.addr + 16 * p.size = b.addr from Nat.ne_of_lt hpx), hjoin] at hret'
    refine ⟨_, _, hret', FreeList.put_place hf hj hlt hB hpx hxpos, rfl, hperm _ ?_, ?_, hmem _⟩
    · rw [flatMap_cons]
    · exact ⟨x, mem_append_right _ (mem_cons_of_mem p mem_cons_self), hj.le⟩

end Xv6.Umalloc
