/-
  Rules for the operations of `kalloc.c` and for access to one page.

  `Spec L E Q m h b`: with the heap `h` and `b` free pages, `m` ends with `Q`, and it panics only
  with a panic in `E`.
-/
import Xv6.Lib.Wp
import Xv6.Vm.Page

namespace Xv6.Vm

open Lib Function Heap

abbrev PageHeap := Heap PageData

abbrev Post (α : Type) := α → PageHeap → ℕ → Prop

variable {α : Type}

abbrev Spec (L : Layout) (E : Panic → Prop) (Q : Post α) (m : K α) (h : PageHeap) (b : ℕ) : Prop :=
  wp L.managed E Q m h b

variable {L : Layout} {E : Panic → Prop} {h : PageHeap} {b p : ℕ} {tb : Table} {i : Fin 512}
  {e : Pte} {d : PageData}

theorem maps_iff : e.maps p = true ↔ e.v = true ∧ e.u = true ∧ e.ppn = p := by
  unfold Pte.maps
  simp [and_assoc]

/-! ## `kalloc.c` -/

theorem kalloc_spec {Q : Post (Option ℕ)} (hfail : b = 0 → Q none h b)
    (hok : ∀ p, p ∈ L.managed → h p = none → 0 < b →
      Q (some p) (h.set p (some (1, .bytes fun _ => 5))) (b - 1)) : Spec L E Q kalloc h b := by
  refine ⟨hfail, ?_⟩
  intro p d hp hnone hserve
  refine ⟨0, d, set_same h p _, ?_⟩
  rw [set_set]
  refine ⟨0, _, set_same h p _, ?_⟩
  rw [set_set]
  exact hok p hp hnone hserve

/-- What `kfree` leaves of a page. -/
def lessRef : Cell PageData → Cell PageData
  | some (n + 2, d) => some (n + 1, d)
  | _ => none

variable {n : ℕ} {Q : Post Unit}

theorem kfree_spec (hR : p ∈ L.managed) (hp : h p = some (n + 1, d))
    (hQ : ∀ b', b ≤ b' → Q () (h.set p (lessRef (h p))) b') : Spec L E Q (kfree L p) h b := by
  unfold kfree
  rw [if_neg (by
    have := Layout.mem_managed.mp hR
    omega)]
  refine ⟨n, d, hp, ?_⟩
  rw [hp] at hQ
  cases n with
  | zero =>
    refine ⟨0, d, set_same h p _, ?_⟩
    rw [set_set]
    refine ⟨_, set_same h p _, ?_⟩
    rw [set_set]
    exact hQ (b + 1) (Nat.le_succ b)
  | succ n => exact hQ b (Nat.le_refl b)

theorem krefIncr_spec (hR : p ∈ L.managed) (hp : h p = some (n, d))
    (hQ : Q () (h.set p (some (n + 1, d))) b) : Spec L E Q (krefIncr L p) h b := by
  unfold krefIncr
  rw [if_neg (by
    have := Layout.mem_managed.mp hR
    omega)]
  exact ⟨n, d, hp, hQ⟩

/-! ## One page -/

theorem readPte_spec {Q : Post Pte} (hp : h p = some (n, .table tb)) (hQ : Q (tb i) h b) :
    Spec L E Q (readPte p i) h b :=
  ⟨n, .table tb, hp, hQ⟩

theorem setPte_spec (hp : h p = some (n, .table tb))
    (hQ : Q () (h.set p (some (n, .table (update tb i e)))) b) : Spec L E Q (setPte p i e) h b :=
  ⟨n, .table tb, hp, n, .table tb, hp, hQ⟩

theorem readBytes_spec {Q : Post (ℕ → UInt8)} {f : ℕ → UInt8} (hp : h p = some (n, .bytes f))
    (hQ : Q f h b) : Spec L E Q (readBytes p) h b :=
  ⟨n, .bytes f, hp, hQ⟩

theorem write_spec {d' : PageData} (hp : h p = some (n, d)) (hQ : Q () (h.set p (some (n, d'))) b) :
    Spec L E Q (.write p d' (.ret ())) h b :=
  ⟨n, d, hp, hQ⟩

theorem memmove_spec {f : ℕ → UInt8} {off : ℕ} {src : List UInt8} (hp : h p = some (n, .bytes f))
    (hQ : Q () (h.set p (some (n, .bytes (patch f off src)))) b) :
    Spec L E Q (memmove p off src) h b :=
  wp_seq (readBytes_spec hp (write_spec hp hQ))

end Xv6.Vm
