/-
  What user mode can reach, and the panics that it cannot cause.

  Every page that a user page table maps for user mode is that of no page table, trapframe, kernel
  stack, pipe or disk queue, and is not free. The user part of a page table ends at the size of the
  process. As these hold in every reachable state, the calls find what they rely on: the only panic
  left is the one of `uvmmap`, when memory runs out for the kernel page table of a new process.
-/
import Xv6.Vm.Runs

namespace Xv6.Vm

open Lib Process Function

variable {L : Layout} {E : Panic → Prop} {G : Forest} {h : PageHeap} {id : Tid} {m : Machine}
  {own : ℕ → Option Slot} {s : Store PageData} {i j : Slot} {q root : ℕ}

/-! ## Pages of page tables -/

/-- `q` is a page of the table with this root, at level `l`. -/
inductive TablePage (s : Store PageData) (root : ℕ) : ℕ → ℕ → Prop
  | root : TablePage s root 2 root
  | child {l q : ℕ} {t : Table} {k : Fin 512} : TablePage s root (l + 1) q → s.data q = .table t →
      (t k).v = true → TablePage s root l (t k).ppn

theorem World.tablePage {l : ℕ} (hw : World L s h G) (hroot : G.node id .root = some root)
    (ht : TablePage s root l q) : ∃ π, G.node id π = some q := by
  have hpath : ∃ π, G.node id π = some q ∧
      (l = 2 ∧ π = .root ∨ l = 1 ∧ (∃ i, π = .mid i) ∨ l = 0 ∧ ∃ i j, π = .bot i j) := by
    induction ht with
    | root => exact ⟨.root, hroot, .inl ⟨rfl, rfl⟩⟩
    | @child l q t k _ hd hv ih =>
      obtain ⟨π, hπ, hl⟩ := ih
      have ht := hw.consistent.data _ _ _ (hw.holds.table id π q hπ)
      rw [hd] at ht
      cases ht
      -- a link leads to the node below
      have hlink : ∀ {o : Option ℕ}, (link o).v = true → o = some (link o).ppn := by
        intro o ho
        cases o with
        | none => cases ho
        | some p => rfl
      rcases hl with ⟨hl, rfl⟩ | ⟨hl, i, rfl⟩ | ⟨hl, _⟩
      · exact ⟨.mid k, hlink hv, .inr (.inl ⟨by omega, k, rfl⟩)⟩
      · exact ⟨.bot i k, hlink hv, .inr (.inr ⟨by omega, i, k, rfl⟩)⟩
      · cases hl
  obtain ⟨π, hπ, _⟩ := hpath
  exact ⟨π, hπ⟩

/-- A live process has a kernel page table. -/
theorem Inv.kernRoot (hI : Inv L m h G own) (hj : m.Live j) :
    G.node (.kern j) .root = some (m.procs j).kpagetable :=
  (hI.slots j).mem.kpagetable.trans (ptr_ne ((hI.slots j).live hj).2.2.1)

/-! ## User mappings -/

/-- The pages that process `j` has from the kernel: its trapframe, its kernel stack and its page
    tables. -/
def Machine.Owns (m : Machine) (j : Slot) (q : ℕ) : Prop :=
  q = (m.procs j).trapframe ∨
    q ∈ (entryIn m.store (m.procs j).kpagetable ((m.procs j).kstack / pgSize)).stack ∨
    (∃ l, TablePage m.store (m.procs j).pagetable l q) ∨
    ∃ l, TablePage m.store (m.procs j).kpagetable l q

/-- **The kernel is out of reach.** A page that process `i` has mapped for user mode belongs to the
    memory that the allocator manages, is not free, and is none of the kernel's. The trampoline and
    the trapframe are not for user mode. -/
theorem user_pages_apart (hr : Reachable L m) (hi : m.Live i) :
    (∀ v, (m.entry i v).v = true → (m.entry i v).u = true →
      (m.entry i v).ppn ∈ L.managed ∧ (m.entry i v).ppn ∉ m.store.free ∧
      (m.entry i v).ppn ∉ m.kern ∧
      (m.entry i v).ppn ∉ m.disk ∧
      (∀ l, ¬ TablePage m.store m.kernelPagetable l (m.entry i v).ppn) ∧
      ∀ j, m.Live j → ¬ m.Owns j (m.entry i v).ppn) ∧
    ((m.entry i tpVpn).v = true → (m.entry i tpVpn).u = false) ∧
    ((m.entry i tfVpn).v = true → (m.entry i tfVpn).u = false) := by
  obtain ⟨h, G, own, hI⟩ := hr.inv
  have hH := hI.world.holds
  refine ⟨fun v hv hu => ?_, ?_, ?_⟩
  · rw [hI.entry hi] at hv hu ⊢
    have hm : (G.leaf (.user i) v).maps (G.leaf (.user i) v).ppn = true :=
      maps_iff.mpr ⟨hv, hu, rfl⟩
    generalize (G.leaf (.user i) v).ppn = q at hm
    obtain ⟨hk, hpos, hc⟩ := hH.of_leaf hm
    have hpriv : q ∉ G.priv := fun hx => hk (.inr hx)
    have hne : q ≠ 0 := Layout.pos_of_managed (hH.managed_of_leaf hm)
    refine ⟨hH.managed_of_leaf hm, fun hx => ?_, fun hx => hpriv (hI.kern q hx).1,
      fun hx => hpriv (hI.kern q (hI.disk q hx)).1,
      fun l hx => hk (.inl ⟨_, hI.world.tablePage hI.kernel.1 hx⟩), fun j hj hx => ?_⟩
    · exact hc.held hpos ((hI.world.consistent.free q).mp hx).2
    · have hs := (hI.slots j).mem
      have hkroot := hI.kernRoot hj
      rcases hx with rfl | hx | ⟨l, hx⟩ | ⟨l, hx⟩
      · exact hpriv (hs.trapframe hne)
      · rw [hI.world.entry hkroot] at hx
        exact hpriv (hs.stack q hx).1
      · exact hk (.inl ⟨_, hI.world.tablePage (hI.root hj) hx⟩)
      · exact hk (.inl ⟨_, hI.world.tablePage hkroot hx⟩)
  · rw [hI.entry hi]
    exact fun hv => ((hI.leaves i).trampoline hv).1
  · rw [hI.entry hi]
    exact fun hv => ((hI.leaves i).trapframe hv).1

/-- A page that parent and child share. -/
theorem user_pages_apart_shared :
    ∃ m, after smallLayout [.sbrk 0 8192 1, .fork 0 1 2] = some m ∧ m.Live 1 ∧
      (m.entry 1 1).v = true ∧ (m.entry 1 1).u = true ∧ (m.entry 1 1).ppn ∉ m.store.free ∧
      ¬ m.Owns 1 (m.entry 1 1).ppn := by
  obtain ⟨m, hm, hr, hi, hv, hu⟩ := after_any (L := smallLayout) [.sbrk 0 8192 1, .fork 0 1 2]
    (fun m => m.Live 1 ∧ (m.entry 1 1).v = true ∧ (m.entry 1 1).u = true) (by decide +kernel)
  obtain ⟨_, hfree, _, _, _, hown⟩ := (user_pages_apart hr hi).1 1 hv hu
  exact ⟨m, hm, hi, hv, hu, hfree, hown 1 hi⟩

/-! ## The shape of an address space -/

/-- The panic that ends the call. -/
def Machine.panic {α : Type} (m : Machine) (c : K α) : Option Panic :=
  match c.run m.store with
  | (.ok _, _) => none
  | (.error x, _) => some x

/-- The panic that an event leads to. -/
def panics (L : Layout) (m : Machine) : Ev → Option Panic :=
  eventCall L m (fun c _ => m.panic c) none

/-- In a state in order no call panics, but `fork` when there is no page for the kernel page
    table. -/
theorem Inv.panics {e : Ev} {x : Panic} (hI : Inv L m h G own) (hx : panics L m e = some x) :
    x = .uvmmap := by
  have he := hI.event e
  unfold Vm.panics at hx
  rcases eventCall_cases L m e with ⟨α, c, f, heq⟩ | heq
  · rw [heq] at he hx
    unfold Machine.panic at hx
    rcases hI.world.run_or he with ⟨_, _, hrun, hpanic⟩ | ⟨_, _, _, _, hrun, _⟩
    · rw [hrun] at hx
      cases hx
      exact hpanic
    · rw [hrun] at hx
      cases hx
  · rw [heq] at hx
    cases hx

theorem Inv.shape (hI : Inv L m h G own) (hi : m.Live i) :
    (m.procs i).sz ≤ trapframeVa ∧
      (∀ v, (m.entry i v).v = true → (m.entry i v).u = true →
        v * pgSize < pgRoundUp (m.procs i).sz) ∧
      ∀ v, (m.entry i v).v = true → (m.entry i v).u = false → v = tfVpn ∨ v = tpVpn := by
  have hl := hI.leaves i
  have h1 := tfVpn_eq
  refine ⟨?_, fun v hv hu => ?_, fun v hv hu => ?_⟩
  · have hb := hl.bound
    unfold pageCount pgRoundUp pgSize at hb
    unfold trapframeVa Xv6.trampoline maxVa pgSize
    omega
  · rw [hI.entry hi] at hv hu
    have hlt := hl.lt_of_maps (maps_iff.mpr ⟨hv, hu, rfl⟩)
    rw [pgRoundUp_eq]
    exact Nat.mul_lt_mul_of_pos_right hlt (by decide)
  · rw [hI.entry hi] at hv hu
    by_contra hne
    push Not at hne
    by_cases hlt : v < pageCount (m.procs i).sz
    · have hx := (hl.user v hlt hv).1
      rw [hu] at hx
      cases hx
    · have hx := hl.above v (Nat.le_of_not_lt hlt) hne.1 hne.2
      rw [hv] at hx
      cases hx

/-- **The shape of an address space.** The size is at most `TRAPFRAME`, what user mode can use is
    below it, and the rest is the trapframe and the trampoline. No call of a process can make the
    kernel panic, but `fork` when there is no page for the kernel page table of the child. -/
theorem address_space_shape (hr : Reachable L m) :
    (∀ i, m.Live i → (m.procs i).sz ≤ trapframeVa ∧
      (∀ v, (m.entry i v).v = true → (m.entry i v).u = true →
        v * pgSize < pgRoundUp (m.procs i).sz) ∧
      ∀ v, (m.entry i v).v = true → (m.entry i v).u = false → v = tfVpn ∨ v = tpVpn) ∧
    ∀ e x, panics L m e = some x → x = .uvmmap := by
  obtain ⟨h, G, own, hI⟩ := hr.inv
  exact ⟨fun i hi => hI.shape hi, fun e x hx => hI.panics hx⟩

/-- After growth in both ways and a fork. -/
theorem address_space_shape_grown :
    ∃ m, after smallLayout [.sbrk 0 8192 1, .sbrk 0 4096 2, .fork 0 1 2] = some m ∧ m.Live 1 ∧
      (m.procs 1).sz = 12288 ∧ (∀ v, (m.entry 1 v).v = true → (m.entry 1 v).u = true →
        v * pgSize < pgRoundUp (m.procs 1).sz) ∧
      ∀ e x, panics smallLayout m e = some x → x = .uvmmap := by
  obtain ⟨m, hm, hr, hi, hsz⟩ := after_any (L := smallLayout)
    [.sbrk 0 8192 1, .sbrk 0 4096 2, .fork 0 1 2] (fun m => m.Live 1 ∧ (m.procs 1).sz = 12288)
    (by decide +kernel)
  have hshape := address_space_shape hr
  exact ⟨m, hm, hi, hsz, (hshape.1 1 hi).2.1, hshape.2⟩

/-! ## The kernel page tables -/

/-- A page is mapped by the regions or as it was. -/
theorem kernMap_cases (gs : List Region) (f : ℕ → Pte) (v : ℕ) :
    v ∉ kernPages gs ∧ kernMap gs f v = f v ∨ v ∈ kernPages gs ∧
      ∃ g ∈ gs, ∃ k < g.size / pgSize, kernMap gs f v = kernPte g.perm g.pa k := by
  induction gs generalizing f with
  | nil => exact .inl ⟨fun ⟨g, hg, _⟩ => (nomatch hg), rfl⟩
  | cons g gs ih =>
    rcases ih (setRange f (g.va / pgSize) (g.size / pgSize) (kernPte g.perm g.pa)) with
      ⟨hv, heq⟩ | ⟨⟨g', hg', hv⟩, g'', hg'', hk⟩
    · by_cases hin : g.va / pgSize ≤ v ∧ v < g.va / pgSize + g.size / pgSize
      · refine .inr
          ⟨⟨g, List.mem_cons_self, hin⟩, g, List.mem_cons_self, v - g.va / pgSize, by omega,
          heq.trans ?_⟩
        exact setRange_in hin.1 hin.2
      · refine .inl ⟨?_, heq.trans (setRange_out (by omega))⟩
        rintro ⟨g', hg', hv'⟩
        rcases List.mem_cons.mp hg' with rfl | hg'
        · exact hin hv'
        · exact hv ⟨g', hg', hv'⟩
    · exact .inr ⟨⟨g', List.mem_cons_of_mem _ hg', hv⟩, g'', List.mem_cons_of_mem _ hg'', hk⟩

/-- An entry of a kernel page table: not for user mode; executable only with kernel text and then
    not writable; writable only with other memory. -/
structure KernEntry (L : Layout) (e : Pte) : Prop where
  user : e.u = false
  text : e.x = true → e.w = false ∧ kernBase / pgSize ≤ e.ppn ∧ e.ppn < L.etext
  data : e.w = true → e.ppn < kernBase / pgSize ∨ L.etext ≤ e.ppn

theorem kernMap_entry (L : Layout) (v : ℕ) :
    KernEntry L (kernMap (regions L) (fun _ => .zero) v) := by
  have hbase : kernBase / pgSize = 524288 := rfl
  have htext := L.text
  have hcode := L.code
  have hlen := L.devices.2.2
  rcases kernMap_cases (regions L) (fun _ => .zero) v with ⟨_, heq⟩ | ⟨_, g, hg, k, hk, heq⟩
  · rw [heq]
    exact ⟨rfl, nofun, nofun⟩
  · rw [heq]
    unfold regions at hg
    simp only [List.mem_cons, List.not_mem_nil, or_false] at hg
    rcases hg with rfl | rfl | rfl | rfl | rfl | rfl
    · refine ⟨rfl, nofun, fun _ => .inl ?_⟩
      have hk1 : k < 1 := hk
      show 65536 + k < 524288
      omega
    · refine ⟨rfl, nofun, fun _ => .inl ?_⟩
      have hk1 : k < 1 := hk
      show 65537 + k < 524288
      omega
    · refine ⟨rfl, nofun, fun _ => .inl ?_⟩
      have hk1 : k < L.plicLen / 4096 := hk
      have hlen' : L.plicLen ≤ 67108864 := hlen
      show 49152 + k < 524288
      omega
    · refine ⟨rfl, fun _ => ⟨rfl, ?_⟩, nofun⟩
      have hk1 : k < (L.etext * 4096 - 2147483648) / 4096 := hk
      show 524288 ≤ 524288 + k ∧ 524288 + k < L.etext
      omega
    · refine ⟨rfl, nofun, fun _ => .inr ?_⟩
      exact Nat.le_add_right _ _
    · refine ⟨rfl, fun _ => ⟨rfl, ?_⟩, nofun⟩
      have hk1 : k < pgSize / pgSize := hk
      rw [Nat.div_self (by decide)] at hk1
      show kernBase / pgSize ≤ L.trampoline + k ∧ L.trampoline + k < L.etext
      omega

theorem kstackVa_vpn_ne (hij : i ≠ j) : kstackVa i / pgSize ≠ kstackVa j / pgSize := by
  have hi := i.isLt
  have hj := j.isLt
  have hne : (i : ℕ) ≠ j := fun hx => hij (Fin.ext hx)
  unfold nproc at hi hj
  unfold kstackVa Xv6.trampoline maxVa pgSize
  omega

/-- The page tables that the kernel runs on. -/
def Machine.KernRoot (m : Machine) (r : ℕ) : Prop :=
  r = m.kernelPagetable ∨ ∃ i, m.Live i ∧ r = (m.procs i).kpagetable

namespace Inv

variable (hI : Inv L m h G own)

include hI

theorem kernel_entry (v : ℕ) :
    entryIn m.store m.kernelPagetable v = kernMap (regions L) (fun _ => .zero) v := by
  rw [hI.world.entry hI.kernel.1, hI.kernel.2]

/-- The stack of process `i`, and the rest of its kernel page table. -/
theorem kern_entry (hi : m.Live i) : ∃ stk ∈ L.managed, stk ∉ m.store.free ∧
    ∀ v, entryIn m.store (m.procs i).kpagetable v = update (kernMap (regions L) fun _ => .zero)
      (kstackVa i / pgSize) (kernPte { r := true, w := true } stk 0) v := by
  have hs := hI.slots i
  obtain ⟨_, _, hstack, stk, hleaf⟩ := (hs.live hi).2
  have hmem : stk ∈ (G.leaf (.kern i) ((m.procs i).kstack / pgSize)).stack := by
    rw [hstack, hleaf, update_self]
    exact ⟨rfl, rfl⟩
  have hpriv := (hs.mem.stack stk hmem).1
  obtain ⟨d, hd⟩ := hI.world.holds.own stk hpriv
  refine ⟨stk, hI.world.holds.managed_of_kern (.inr hpriv), fun hx => ?_, fun v => ?_⟩
  · have hnone := ((hI.world.consistent.free stk).mp hx).2
    rw [hd] at hnone
    cases hnone
  · rw [hI.world.entry (hI.kernRoot hi), hleaf]

theorem kern_root_entry {r : ℕ} (hr : m.KernRoot r) (v : ℕ) :
    KernEntry L (entryIn m.store r v) := by
  rcases hr with rfl | ⟨i, hi, rfl⟩
  · rw [hI.kernel_entry]
    exact kernMap_entry L v
  · obtain ⟨stk, hstk, _, he⟩ := hI.kern_entry hi
    rw [he]
    by_cases hv : v = kstackVa i / pgSize
    · rw [hv, update_self]
      refine ⟨rfl, nofun, fun _ => .inr ?_⟩
      exact L.data.trans (Layout.mem_managed.mp hstk).1
    · rw [update_of_ne hv]
      exact kernMap_entry L v

end Inv

/-- **The kernel page tables agree, and nothing in them is both writable and executable.** The table
    of a process has one page more than the kernel's, the stack, and no other table has that
    page. -/
theorem kernel_tables_agree (hr : Reachable L m) :
    (∀ i, m.Live i →
      (∀ v, v ≠ kstackVa i / pgSize → entryIn m.store (m.procs i).kpagetable v =
        entryIn m.store m.kernelPagetable v) ∧
      (∃ stk ∈ L.managed, stk ∉ m.store.free ∧
        entryIn m.store (m.procs i).kpagetable (kstackVa i / pgSize) =
          kernPte { r := true, w := true } stk 0) ∧
      (entryIn m.store m.kernelPagetable (kstackVa i / pgSize)).v = false ∧
      ∀ j, m.Live j → j ≠ i →
        (entryIn m.store (m.procs j).kpagetable (kstackVa i / pgSize)).v = false) ∧
    ∀ r r', m.KernRoot r → m.KernRoot r' → ∀ v v',
      (entryIn m.store r v).u = false ∧
        ((entryIn m.store r v).w = true → (entryIn m.store r' v').x = true →
          (entryIn m.store r v).ppn ≠ (entryIn m.store r' v').ppn) := by
  obtain ⟨h, G, own, hI⟩ := hr.inv
  have hout : ∀ i : Slot, kernMap (regions L) (fun _ => .zero) (kstackVa i / pgSize) = .zero := by
    intro i
    rcases kernMap_cases (regions L) (fun _ => .zero) (kstackVa i / pgSize) with ⟨_, heq⟩ | ⟨hv, _⟩
    · exact heq
    · exact absurd hv (kstackVa_not_kernPages L i)
  refine ⟨fun i hi => ⟨fun v hv => ?_, ?_, ?_, fun j hj hji => ?_⟩, fun r r' hr hr' v v' =>
    ⟨?_, ?_⟩⟩
  · obtain ⟨stk, _, _, he⟩ := hI.kern_entry hi
    rw [he, update_of_ne hv, hI.kernel_entry]
  · obtain ⟨stk, hstk, hfree, he⟩ := hI.kern_entry hi
    exact ⟨stk, hstk, hfree, by rw [he, update_self]⟩
  · rw [hI.kernel_entry, hout]
    rfl
  · obtain ⟨stk, _, _, he⟩ := hI.kern_entry hj
    rw [he, update_of_ne (kstackVa_vpn_ne hji.symm), hout]
    rfl
  · exact (hI.kern_root_entry hr v).user
  · intro hw hx heq
    obtain ⟨_, hlo, hhi⟩ := (hI.kern_root_entry hr' v').text hx
    rcases (hI.kern_root_entry hr v).data hw with hlt | hge
    · omega
    · omega

/-- The kernel stacks of two processes. -/
theorem kernel_tables_agree_two :
    ∃ m, after smallLayout [.fork 0 1 2] = some m ∧ m.Live 0 ∧ m.Live 1 ∧
      (entryIn m.store (m.procs 1).kpagetable (kstackVa (0 : Slot) / pgSize)).v = false ∧
      ∀ v, v ≠ kstackVa (1 : Slot) / pgSize →
        entryIn m.store (m.procs 1).kpagetable v = entryIn m.store m.kernelPagetable v := by
  obtain ⟨m, hm, hr, h0, h1⟩ := after_any (L := smallLayout) [.fork 0 1 2]
    (fun m => m.Live 0 ∧ m.Live 1) (by decide +kernel)
  have hagree := (kernel_tables_agree hr).1
  exact ⟨m, hm, h0, h1, (hagree 0 h0).2.2.2 1 h1 (by decide), (hagree 1 h1).1⟩

end Xv6.Vm
