/-
  The memory of the whole machine over its runs.

  `boot` takes memory as `main` does up to the first process. After it the processes fork, exec,
  grow and shrink, load and store; the kernel copies to and from their memory, gives that of a dead
  process back, and takes pages for pipes. A call runs to its end before the next one starts, and
  one that panics has no next state. `Inv` is what holds in between.
-/
import Xv6.Lib.Run
import Xv6.Vm.ForkSpec
import Xv6.Vm.SysExec
import Xv6.Vm.World

namespace Xv6.Vm

open Lib Process Function Forest Heap

structure Machine where
  store : Store PageData
  procs : Slot → Proc
  /-- Pages that the kernel has taken for itself: those of the disk, and pipes. -/
  kern : List ℕ
  kernelPagetable : ℕ
  disk : List ℕ

inductive Ev where
  /-- Process `i` forks, and `allocproc` finds slot `j`. -/
  | fork (i j : Slot) (pid : ℤ)
  | freeproc (i : Slot)
  | exec (i : Slot) (upath uargv : ℕ) (namei : List UInt8 → Option Inode)
  | sbrk (i : Slot) (n t : ℤ)
  | load (i : Slot) (va : ℕ)
  | store (i : Slot) (va : ℕ) (c : UInt8)
  | copyin (i : Slot) (srcva len : ℕ)
  | copyout (i : Slot) (dstva : ℕ) (src : List UInt8)
  | kalloc
  | kfree (q : ℕ)

namespace Machine

variable {α : Type} (m : Machine)

/-- The state after the call `k` with the result `a`, as `f` makes it of the new store. -/
def call (k : K α) (f : α → Machine → Machine) : Option Machine :=
  match k.run m.store with
  | (.ok a, s) => some (f a { m with store := s })
  | (.error _, _) => none

def setProc (i : Slot) (p : Proc) : Machine := { m with procs := update m.procs i p }

/-- What `vmfault` reads of process `i`. -/
def cur (i : Slot) : Cur := ⟨(m.procs i).sz, (m.procs i).pagetable⟩

def Live (i : Slot) : Prop := (m.procs i).state ≠ .unused

instance (i : Slot) : Decidable (m.Live i) := inferInstanceAs (Decidable (_ ≠ _))

end Machine

/-- The memory before `kinit`. -/
def raw : Store PageData := ⟨fun _ => 0, [], fun _ => .bytes fun _ => 0⟩

variable (L : Layout)

/-- `main` up to `userinit`. -/
def boot : Option Machine :=
  (Machine.mk raw (fun _ => .zero) [] 0 []).call (do
      let (kpgtbl, disk) ← bootMem L
      match ← allocprocMem L 0 1 .zero with
      | none => .fail .null
      | some p => .ret (p, kpgtbl, disk)) fun (p, kpgtbl, disk) m =>
    { m.setProc 0 { p with state := .runnable } with
      kern := disk
      kernelPagetable := kpgtbl
      disk := disk }

/-- The call that an event makes and what becomes of the machine with its result, given to `k`; `z`
    if the event cannot be. -/
def eventCall {β : Type} (m : Machine) (k : {α : Type} → K α → (α → Machine → Machine) → β)
    (z : β) :
    Ev → β
  | .fork i j pid =>
    if m.Live i ∧ ¬ m.Live j then
      k (kfork L (m.procs i) j pid (m.procs j)) fun r m =>
        match r with
        | some np => m.setProc j { np with parent := some i, state := .runnable }
        | none => m.setProc j (freeproc (allocFound (m.procs j) pid))
    else z
  | .freeproc i =>
    if m.Live i then
      k (freeprocMem L (m.procs i)) fun _ m => m.setProc i (freeproc (m.procs i))
    else z
  | .exec i upath uargv namei =>
    if m.Live i then
      k (sysExec L (m.procs i) upath uargv namei) fun r m =>
        match r.1 with
        | some x => m.setProc i (execImage (m.procs i) x)
        | none => m
    else z
  | .sbrk i n t =>
    if m.Live i then
      k (sysSbrk L (m.procs i) n t) fun r m =>
        m.setProc i { m.procs i with sz := r.getD (m.procs i).sz }
    else z
  | .load i va => if m.Live i then k (userLoad L (m.cur i) va) fun _ m => m else z
  | .store i va c => if m.Live i then k (userStore L (m.cur i) va c) fun _ m => m else z
  | .copyin i srcva len =>
    if m.Live i then k (copyin L (m.cur i) (m.cur i).pagetable srcva len) fun _ m => m else z
  | .copyout i dstva src =>
    if m.Live i then k (copyout L (m.cur i) (m.cur i).pagetable dstva src) fun _ m => m else z
  | .kalloc => k kalloc fun r m => r.elim m fun q => { m with kern := q :: m.kern }
  | .kfree q =>
    if q ∈ m.kern ∧ q ∉ m.disk then
      k (kfree L q) fun _ m => { m with kern := m.kern.erase q }
    else z

/-- One call. -/
def step (m : Machine) : Ev → Option Machine := eventCall L m m.call none

/-- The machine can be in this state. -/
def Reachable (m : Machine) : Prop :=
  ∃ m₀ es, boot L = some m₀ ∧ Run (Fires (step L)) m₀ es m

variable {L} {E : Panic → Prop} {G G' : Forest} {h h' : PageHeap} {id : Tid} {m m' : Machine}
  {s : Store PageData} {i j k : Slot} {p : Proc} {q sz b : ℕ} {I : Set Tid}

/-! ## A new table in the place of the old one -/

/-- The tables under other names. -/
def Forest.rename (G : Forest) (σ : Tid ≃ Tid) : Forest :=
  ⟨fun id => G.node (σ id), fun id => G.leaf (σ id), G.priv⟩

theorem Forest.refs_rename (σ : Tid ≃ Tid) : (G.rename σ).refs q = G.refs q := by
  refine Finset.sum_equiv (σ.prodCongr (Equiv.refl ℕ)) (fun x => ?_) fun x _ => rfl
  unfold vpages
  simp

theorem Forest.node_rename (σ : Tid ≃ Tid) : (G.rename σ).Node q ↔ G.Node q := by
  constructor
  · rintro ⟨id, π, hq⟩
    exact ⟨σ id, π, hq⟩
  · rintro ⟨id, π, hq⟩
    exact ⟨σ.symm id, π, by show G.node (σ (σ.symm id)) π = some q; rwa [σ.apply_symm_apply]⟩

theorem Holds.rename (hH : Holds L G h) (σ : Tid ≃ Tid) : Holds L (G.rename σ) h where
  table id π p hp := by
    rw [hH.table (σ id) π p hp]
    cases π <;> rfl
  inj id π id' π' p hp hp' := by
    obtain ⟨h1, h2⟩ := hH.inj _ _ _ _ p hp hp'
    exact ⟨σ.injective h1, h2⟩
  mid_up id := hH.mid_up (σ id)
  bot_up id := hH.bot_up (σ id)
  leafless id := hH.leafless (σ id)
  bound id := hH.bound (σ id)
  apart p hp := hH.apart p ((node_rename σ).mp hp)
  range := hH.range
  own := hH.own
  kern p hp := by
    rw [refs_rename]
    exact hH.kern p (hp.imp_left (node_rename σ).mp)
  user p hp := by
    rw [refs_rename]
    exact hH.user p fun hk => hp (hk.imp_left (node_rename σ).mpr)
  writable id v p hm hw := by
    rw [refs_rename]
    exact hH.writable (σ id) v p hm hw

/-! ## The invariant -/

/-- What holds for slot `i`. `own` says whose trapframe or kernel stack a private page is. -/
structure SlotInv (L : Layout) (G : Forest) (own : ℕ → Option Slot) (i : Slot) (p : Proc) :
    Prop where
  mem : SlotMem L G i p
  blank : p.state = .unused → Blank p
  live : p.state ≠ .unused → p.pagetable ≠ 0 ∧ KernView L G i p
  owner : ∀ q ∈ slotPages G i p, q ≠ 0 → own q = some i

structure Inv (L : Layout) (m : Machine) (h : PageHeap) (G : Forest) (own : ℕ → Option Slot) :
    Prop where
  world : World L m.store h G
  slots : ∀ i, SlotInv L G own i (m.procs i)
  kern : ∀ q ∈ m.kern, q ∈ G.priv ∧ own q = none
  nodup : m.kern.Nodup
  next : G.node .next .root = none
  kernel : G.node .kernel .root = some m.kernelPagetable ∧
    G.leaf .kernel = kernMap (regions L) fun _ => .zero
  disk : ∀ q ∈ m.disk, q ∈ m.kern

variable {own own' : ℕ → Option Slot}

theorem SlotMem.mem_priv (hs : SlotMem L G i p) (hq : q ∈ slotPages G i p) (h0 : q ≠ 0) :
    q ∈ G.priv := by
  rcases hq with rfl | hq
  · exact hs.trapframe h0
  · exact (hs.stack q hq).1

theorem Holds.priv_pos (hH : Holds L G h) (hq : q ∈ G.priv) : q ≠ 0 :=
  Layout.pos_of_managed (hH.managed_of_kern (.inr hq))

/-- A slot whose tables and pages have not been touched. -/
theorem SlotInv.rest (hs : SlotInv L G own i p) (hH : Holds L G h) (hr : Rest I G h G' h')
    (hu : .user i ∉ I) (hk : .kern i ∉ I)
    (hkeep : ∀ q ∈ G.priv, own q = some i → q ∈ G'.priv ∧ own' q = some i) :
    SlotInv L G' own' i p where
  mem := by
    refine hs.mem.change (by rw [hr.node _ hu]) (by rw [hr.leaf _ hu]; exact hs.mem.leaves)
      (by rw [hr.node _ hk]) (hr.leaf _ hk) (fun q hq hp => ?_) rfl rfl rfl rfl
    exact (hkeep q hp (hs.owner q hq (hH.priv_pos hp))).1
  blank := hs.blank
  live hp := ⟨(hs.live hp).1, (hs.live hp).2.congr (hr.leaf _ hk) rfl rfl rfl⟩
  owner q hq h0 := by
    rw [slotPages_congr (hr.leaf _ hk) rfl rfl] at hq
    exact (hkeep q (hs.mem.mem_priv hq h0) (hs.owner q hq h0)).2

/-- A slot that holds nothing. -/
theorem SlotInv.empty (hH : Holds L G h) (hu : G.node (.user i) .root = none)
    (hk : G.node (.kern i) .root = none) (hb : Blank p) (hp : p.state = .unused) :
    SlotInv L G own i p := by
  have hbegun : Begun L i p G h G h := .start hH hb hu hk
  refine ⟨hbegun.slotMem, fun _ => hb, fun hx => absurd hp hx, fun q hq h0 => ?_⟩
  rw [hbegun.slotPages_eq, hb.trapframe] at hq
  exact absurd hq h0

namespace Inv

variable (hI : Inv L m h G own)

include hI

theorem root (hi : m.Live i) : G.node (.user i) .root = some (m.procs i).pagetable := by
  rw [(hI.slots i).mem.pagetable, ptr_ne ((hI.slots i).live hi).1]

theorem leaves (i : Slot) : UserLeaves (G.leaf (.user i)) (pageCount (m.procs i).sz) :=
  (hI.slots i).mem.leaves

theorem userProc (hi : m.Live i) : UserProc G i (m.procs i) := ⟨hI.root hi, hI.leaves i, hI.next⟩

/-- A call that changes the user page table of process `i` and its size. -/
theorem user (hi : m.Live i) (hw : World L s h' G') (hr : Rest {.user i} G h G' h')
    (hroot : G'.node (.user i) .root = G.node (.user i) .root) (hpriv : G.priv ⊆ G'.priv)
    (hl : UserLeaves (G'.leaf (.user i)) (pageCount sz)) :
    Inv L ({ m with store := s }.setProc i { m.procs i with sz := sz }) h' G' own where
  world := hw
  slots k := by
    have hk : Tid.kern k ∉ ({.user i} : Set Tid) := fun hx => nomatch hx
    have hkeep : ∀ q ∈ G.priv, own q = some k → q ∈ G'.priv ∧ own q = some k :=
      fun q hq ho => ⟨hpriv hq, ho⟩
    show SlotInv L G' own k (update m.procs i { m.procs i with sz := sz } k)
    by_cases hki : k = i
    · subst hki
      rw [update_self]
      have hs := hI.slots k
      refine ⟨?_, fun hx => absurd hx hi, fun hp =>
        ⟨(hs.live hp).1, (hs.live hp).2.congr (hr.leaf _ hk) rfl rfl rfl⟩, ?_⟩
      · exact hs.mem.change hroot hl (by rw [hr.node _ hk]) (hr.leaf _ hk) (fun q _ hq => hpriv hq)
          rfl rfl rfl rfl
      · intro q hq
        have hpages : slotPages G' k { m.procs k with sz := sz } = slotPages G k (m.procs k) :=
          slotPages_congr (hr.leaf _ hk) rfl rfl
        exact hs.owner q (hpages ▸ hq)
    · rw [update_of_ne hki]
      refine (hI.slots k).rest hI.world.holds hr (fun hx => hki ?_) hk hkeep
      exact Tid.user.inj (Set.mem_singleton_iff.mp hx)
  kern q hq := ⟨hpriv (hI.kern q hq).1, (hI.kern q hq).2⟩
  nodup := hI.nodup
  next := by
    rw [hr.node .next fun hx => nomatch hx]
    exact hI.next
  kernel := by
    have hk : Tid.kernel ∉ ({.user i} : Set Tid) := fun hx => nomatch hx
    rw [hr.node .kernel hk, hr.leaf .kernel hk]
    exact hI.kernel
  disk := hI.disk

/-- The same with the size as before. -/
theorem kept (hi : m.Live i) (hw : World L s h' G') (hr : Rest {.user i} G h G' h')
    (hroot : G'.node (.user i) .root = G.node (.user i) .root) (hpriv : G.priv ⊆ G'.priv)
    (hl : UserLeaves (G'.leaf (.user i)) (pageCount (m.procs i).sz)) :
    Inv L { m with store := s } h' G' own := by
  have hI' := hI.user hi hw hr hroot hpriv hl
  have hself : update m.procs i { m.procs i with sz := (m.procs i).sz } = m.procs :=
    update_eq_self i m.procs
  unfold Machine.setProc at hI'
  rwa [hself] at hI'

/-- `sys_exec` has fetched its arguments. -/
theorem fetched {S : Set ℕ} {argv : List ℕ} (hi : m.Live i) (hw : World L s h' G')
    (hf : Fetched L i (m.procs i) S G h argv G' h') : Inv L { m with store := s } h' G' own := by
  refine hI.kept hi hw ⟨hf.node, hf.leaf, fun id _ => hf.page id⟩ ?_ ?_ hf.proc.leaves
  · rw [hf.proc.root, hI.root hi]
  · rw [hf.priv]
    exact Set.subset_union_left

/-- A page is taken for a pipe. -/
theorem take (hq : q ∉ G.priv) (hw : World L s h' (G.addPriv q))
    (hr : Rest ∅ G h (G.addPriv q) h') :
    Inv L { m with store := s, kern := q :: m.kern } h' (G.addPriv q) (update own q none) where
  world := hw
  slots k := by
    refine (hI.slots k).rest hI.world.holds hr (Set.notMem_empty _) (Set.notMem_empty _) ?_
    intro r hrp ho
    refine ⟨.inr hrp, ?_⟩
    rw [update_of_ne]
    · exact ho
    · rintro rfl
      exact hq hrp
  kern r hr := by
    rcases List.mem_cons.mp hr with rfl | hr
    · exact ⟨.inl rfl, update_self _ _ _⟩
    · obtain ⟨h1, h2⟩ := hI.kern r hr
      refine ⟨.inr h1, ?_⟩
      rw [update_of_ne]
      · exact h2
      · rintro rfl
        exact hq h1
  nodup := List.nodup_cons.mpr ⟨fun hx => hq (hI.kern q hx).1, hI.nodup⟩
  next := hI.next
  kernel := hI.kernel
  disk r hr := List.mem_cons_of_mem q (hI.disk r hr)

/-- And given back. -/
theorem give (hq : q ∈ m.kern) (hd : q ∉ m.disk) (hw : World L s h' (G.dropPriv q))
    (hr : Rest ∅ G h (G.dropPriv q) h') :
    Inv L { m with store := s, kern := m.kern.erase q } h' (G.dropPriv q) own where
  world := hw
  slots k := by
    refine (hI.slots k).rest hI.world.holds hr (Set.notMem_empty _) (Set.notMem_empty _) ?_
    intro r hr ho
    refine ⟨⟨hr, ?_⟩, ho⟩
    rintro rfl
    rw [(hI.kern r hq).2] at ho
    cases ho
  kern r hr := by
    obtain ⟨hne, hr⟩ := hI.nodup.mem_erase_iff.mp hr
    exact ⟨⟨(hI.kern r hr).1, hne⟩, (hI.kern r hr).2⟩
  nodup := hI.nodup.erase q
  next := hI.next
  kernel := hI.kernel
  disk r hr := by
    refine hI.nodup.mem_erase_iff.mpr ⟨?_, hI.disk r hr⟩
    rintro rfl
    exact hd hr

/-- The memory of process `i` is given back. -/
theorem free (hw : World L s h' G')
    (hv : Vacated L i (G.priv \ slotPages G i (m.procs i)) G h G' h') :
    Inv L ({ m with store := s }.setProc i (freeproc (m.procs i))) h' G' own where
  world := hw
  slots k := by
    show SlotInv L G' own k (update m.procs i (freeproc (m.procs i)) k)
    by_cases hki : k = i
    · subst hki
      rw [update_self]
      exact .empty hv.holds hv.user hv.kern ⟨rfl, rfl, rfl, rfl, rfl⟩ rfl
    · rw [update_of_ne hki]
      refine (hI.slots k).rest hI.world.holds hv.rest (not_mem_pair (user_ne hki) nofun)
        (not_mem_pair nofun (kern_ne hki)) fun q hq ho => ?_
      · rw [hv.priv]
        refine ⟨⟨hq, fun hx => hki ?_⟩, ho⟩
        rw [(hI.slots i).owner q hx (hI.world.holds.priv_pos hq)] at ho
        exact (Option.some.inj ho).symm
  kern q hq := by
    obtain ⟨h1, h2⟩ := hI.kern q hq
    rw [hv.priv]
    refine ⟨⟨h1, fun hx => ?_⟩, h2⟩
    rw [(hI.slots i).owner q hx (hI.world.holds.priv_pos h1)] at h2
    cases h2
  nodup := hI.nodup
  next := by
    rw [hv.rest.node .next (not_mem_pair nofun nofun)]
    exact hI.next
  kernel := by
    have hk : Tid.kernel ∉ ({.user i, .kern i} : Set Tid) := not_mem_pair nofun nofun
    rw [hv.rest.node .kernel hk, hv.rest.leaf .kernel hk]
    exact hI.kernel
  disk := hI.disk

/-- Process `i` after `fork`. -/
theorem parent (hij : i ≠ j) (hi : m.Live i) (hf : ForkKept L i j (m.procs i).sz G h G' h')
    (hkeep : ∀ q ∈ G.priv, q ∈ G'.priv ∧ own' q = own q) : SlotInv L G' own' i (m.procs i) := by
  have hs := hI.slots i
  have hk : Tid.kern i ∉ ({.user i, .user j, .kern j} : Set Tid) :=
    not_mem_triple nofun nofun (kern_ne hij)
  refine ⟨?_, fun hx => absurd hx hi, fun hp =>
    ⟨(hs.live hp).1, (hs.live hp).2.congr (hf.rest.leaf _ hk) rfl rfl rfl⟩,
    fun q hq h0 => ?_⟩
  · refine hs.mem.change (by rw [hf.node]) (hs.mem.leaves.touch hf.share.touches)
      (by rw [hf.rest.node _ hk])
      (hf.rest.leaf _ hk)
      (fun q _ hq => (hkeep q hq).1) rfl rfl rfl rfl
  · rw [slotPages_congr (hf.rest.leaf _ hk) rfl rfl] at hq
    rw [(hkeep q (hs.mem.mem_priv hq h0)).2]
    exact hs.owner q hq h0

/-- A process that `fork` does not concern. -/
theorem bystander (hki : k ≠ i) (hkj : k ≠ j) (hf : ForkKept L i j (m.procs i).sz G h G' h')
    (hkeep : ∀ q ∈ G.priv, q ∈ G'.priv ∧ own' q = own q) : SlotInv L G' own' k (m.procs k) := by
  refine (hI.slots k).rest hI.world.holds hf.rest
    (not_mem_triple (user_ne hki) (user_ne hkj) nofun) (not_mem_triple nofun nofun (kern_ne hkj))
    fun q hq ho => ?_
  exact ⟨(hkeep q hq).1, by rw [(hkeep q hq).2, ho]⟩

/-- What `fork` does to all slots. -/
theorem fork (hij : i ≠ j) (hi : m.Live i) (hw : World L s h' G')
    (hf : ForkKept L i j (m.procs i).sz G h G' h')
    (hkeep : ∀ q ∈ G.priv, q ∈ G'.priv ∧ own' q = own q) (hp : SlotInv L G' own' j p) :
    Inv L ({ m with store := s }.setProc j p) h' G' own' where
  world := hw
  slots k := by
    show SlotInv L G' own' k (update m.procs j p k)
    by_cases hkj : k = j
    · subst hkj
      rw [update_self]
      exact hp
    · rw [update_of_ne hkj]
      by_cases hki : k = i
      · subst hki
        exact hI.parent hij hi hf hkeep
      · exact hI.bystander hki hkj hf hkeep
  kern q hq := by
    obtain ⟨h1, h2⟩ := hI.kern q hq
    exact ⟨(hkeep q h1).1, by rw [(hkeep q h1).2, h2]⟩
  nodup := hI.nodup
  next := by
    rw [hf.rest.node .next (not_mem_triple nofun nofun nofun)]
    exact hI.next
  kernel := by
    have hk : Tid.kernel ∉ ({.user i, .user j, .kern j} : Set Tid) :=
      not_mem_triple nofun nofun nofun
    rw [hf.rest.node .kernel hk, hf.rest.leaf .kernel hk]
    exact hI.kernel
  disk := hI.disk

theorem unforked (hij : i ≠ j) (hi : m.Live i) (hw : World L s h' G')
    (hf : Unforked L i j (m.procs i).sz G h G' h') :
    Inv L ({ m with store := s }.setProc j (freeproc p)) h' G' own := by
  refine hI.fork hij hi hw hf.toForkKept (fun q hq => ⟨by rw [hf.priv]; exact hq, rfl⟩) ?_
  exact .empty hf.holds hf.user hf.kern ⟨rfl, rfl, rfl, rfl, rfl⟩ rfl

end Inv

/-- The pages of `T` go to slot `j`. -/
noncomputable def assign (own : ℕ → Option Slot) (T : Set ℕ) (j : Slot) : ℕ → Option Slot :=
  open Classical in fun q => if q ∈ T then some j else own q

theorem assign_mem {T : Set ℕ} (hq : q ∈ T) : assign own T j q = some j := if_pos hq

theorem assign_not_mem {T : Set ℕ} (hq : q ∉ T) : assign own T j q = own q := if_neg hq

/-- The slot of a new process. -/
theorem SlotInv.new (hH : Holds L G h) (hmem : SlotMem L G j p) (hv : KernView L G j p)
    (hu : G.node (.user j) .root = some p.pagetable) {p' : Proc} (hst : p'.state ≠ .unused)
    (hsz : p'.sz = p.sz) (hpt : p'.pagetable = p.pagetable) (hkpt : p'.kpagetable = p.kpagetable)
    (htf : p'.trapframe = p.trapframe) (hks : p'.kstack = p.kstack) :
    SlotInv L G (assign own (slotPages G j p) j) j p' := by
  refine ⟨?_, fun hx => absurd hx hst, fun _ => ?_, fun q hq _ => ?_⟩
  · exact hmem.change rfl (by rw [hsz]; exact hmem.leaves) rfl rfl (fun _ _ hq => hq)
      hpt hkpt htf hks
  · refine ⟨?_, hv.congr rfl hkpt hks htf⟩
    rw [hpt]
    exact hH.root_pos hu
  · rw [slotPages_congr rfl htf hks] at hq
    exact assign_mem hq

namespace Inv

variable (hI : Inv L m h G own)

include hI

theorem forked (hij : i ≠ j) (hi : m.Live i) (hw : World L s h' G')
    (hf : Forked L i j (m.procs i).sz p G h G' h') :
    Inv L ({ m with store := s }.setProc j { p with parent := some i, state := .runnable }) h' G'
      (assign own (slotPages G' j p) j) := by
  refine hI.fork hij hi hw hf.toForkKept (fun q hq => ⟨?_, ?_⟩) ?_
  · rw [hf.priv]
    exact .inl hq
  · exact assign_not_mem fun hx => hf.fresh q hx hq
  · exact .new hf.holds hf.mem hf.view hf.user nofun rfl rfl rfl rfl rfl

/-- After `exec` the new table is the process's. -/
theorem started {strs : List (List UInt8)} {r : ExecResult} (hi : m.Live i)
    (hc : Consistent L.managed s h')
    (hs : Started L i strs G h G' h' r) :
    Inv L ({ m with store := s }.setProc i (execImage (m.procs i) r)) h'
      (G'.rename (Equiv.swap .next (.user i))) own := by
  have hswap : ∀ id, id ∉ ({.next, .user i} : Set Tid) → Equiv.swap Tid.next (.user i) id = id := by
    intro id hid
    exact Equiv.swap_apply_of_ne_of_ne (fun hx => hid (.inl hx)) fun hx => hid (.inr hx)
  have hr : Rest {.next, .user i} G h (G'.rename (Equiv.swap .next (.user i))) h' := by
    refine ⟨fun id hid => ?_, fun id hid => ?_, fun id hid => ?_⟩
    · show G'.node (Equiv.swap Tid.next (.user i) id) = G.node id
      rw [hswap id hid, hs.node id (fun hx => hid (.inl hx)) fun hx => hid (.inr hx)]
    · show G'.leaf (Equiv.swap Tid.next (.user i) id) = G.leaf id
      rw [hswap id hid, hs.leaf id (fun hx => hid (.inl hx)) fun hx => hid (.inr hx)]
    · show G'.page h' (Equiv.swap Tid.next (.user i) id) = G.page h id
      rw [hswap id hid, hs.page id (fun hx => hid (.inl hx)) fun hx => hid (.inr hx)]
  have hkern : ∀ k, Tid.kern k ∉ ({.next, .user i} : Set Tid) := by
    rintro k (hx | hx) <;> cases hx
  have hnode : (G'.rename (Equiv.swap .next (.user i))).node (.user i) = G'.node .next := by
    show G'.node (Equiv.swap Tid.next (.user i) (.user i)) = _
    rw [Equiv.swap_apply_right]
  have hleaf : (G'.rename (Equiv.swap .next (.user i))).leaf (.user i) = G'.leaf .next := by
    show G'.leaf (Equiv.swap Tid.next (.user i) (.user i)) = _
    rw [Equiv.swap_apply_right]
  have hpriv : (G'.rename (Equiv.swap .next (.user i))).priv = G.priv := hs.priv
  refine ⟨⟨hc, hs.holds.rename _⟩, fun k => ?_, fun q hq => ?_, hI.nodup, ?_, ?_, hI.disk⟩
  · show SlotInv L _ own k (update m.procs i (execImage (m.procs i) r) k)
    by_cases hki : k = i
    · subst hki
      rw [update_self]
      have hslot := hI.slots k
      refine ⟨⟨?_, ?_, ?_, hslot.mem.kstack, ?_, ?_, ?_⟩, fun hx => absurd hx hi, fun _ => ?_, ?_⟩
      · rw [hnode, hs.root]
        exact (ptr_ne (hs.holds.root_pos hs.root)).symm
      · rw [hleaf]
        exact hs.leaves
      · rw [hr.node _ (hkern k)]
        exact hslot.mem.kpagetable
      · rw [hr.leaf _ (hkern k)]
        exact hslot.mem.kleaves
      · rw [hr.leaf _ (hkern k), hpriv]
        exact hslot.mem.stack
      · rw [hpriv]
        exact hslot.mem.trapframe
      · exact ⟨hs.holds.root_pos hs.root, (hslot.live hi).2.congr (hr.leaf _ (hkern k)) rfl rfl rfl⟩
      · intro q hq
        have hpages : slotPages (G'.rename (Equiv.swap .next (.user k))) k
          (execImage (m.procs k) r) =
            slotPages G k (m.procs k) := slotPages_congr (hr.leaf _ (hkern k)) rfl rfl
        exact hslot.owner q (hpages ▸ hq)
    · rw [update_of_ne hki]
      refine (hI.slots k).rest hI.world.holds hr (not_mem_pair nofun (user_ne hki)) (hkern k)
        fun q hq ho => ?_
      · rw [hpriv]
        exact ⟨hq, ho⟩
  · rw [hpriv]
    exact hI.kern q hq
  · show G'.node (Equiv.swap Tid.next (.user i) .next) .root = none
    rw [Equiv.swap_apply_left]
    exact hs.gone
  · have hk : Tid.kernel ∉ ({.next, .user i} : Set Tid) := not_mem_pair nofun nofun
    rw [hr.node .kernel hk, hr.leaf .kernel hk]
    exact hI.kernel

end Inv

/-! ## Booting -/

/-- Before `kinit` no page is free. -/
def rawHeap (L : Layout) : PageHeap :=
  fun p => if p ∈ L.managed then some (0, .bytes fun _ => 0) else none

theorem raw_consistent (L : Layout) : Consistent L.managed raw (rawHeap L) where
  nodup := .nil
  free p := by
    constructor
    · nofun
    · rintro ⟨hp, hn⟩
      rw [rawHeap, if_pos hp] at hn
      cases hn
  range p hp := by
    by_contra hno
    exact hp (if_neg hno)
  count p hp := by
    rw [rawHeap, if_pos hp]
    rfl
  data p n d hd := by
    unfold rawHeap at hd
    split_ifs at hd
    cases hd
    rfl

theorem freerange_spec {Q : Post Unit} (hQ : ∀ b', Q () (fun _ => none) b') :
    Spec L E Q (freerange L) (rawHeap L) b := by
  have hram := L.ram
  refine wp_mono (Q := fun _ h' _ => h' = fun _ => none) ?_ (wp_mono ?_ (wp_times
    (I := fun j h' _ => h' = fun p => if p ∈ L.managed ∧ j ≤ p then some (0, .bytes fun _ => 0) else
      none)
    ?_ ?_))
  · rintro _ h' b' rfl
    exact hQ b'
  · rintro _ h' b' rfl
    funext p
    refine if_neg ?_
    rintro ⟨hp, hge⟩
    have := Layout.mem_managed.mp hp
    omega
  · funext p
    unfold rawHeap
    by_cases hp : p ∈ L.managed
    · rw [if_pos hp, if_pos ⟨hp, (Layout.mem_managed.mp hp).1⟩]
    · rw [if_neg hp, if_neg fun hx => hp hx.1]
  · rintro j h' b' hlo hhi rfl
    have hj : j ∈ L.managed := Layout.mem_managed.mpr ⟨hlo, by omega⟩
    refine ⟨0, .bytes fun _ => 0, if_pos ⟨hj, Nat.le_refl j⟩, ?_⟩
    refine kfree_spec hj (set_same _ _ _) fun b'' _ => ?_
    rw [set_set, set_same]
    funext p
    by_cases hpj : p = j
    · rw [hpj, set_same]
      exact (if_neg fun hx => absurd hx.2 (by omega)).symm
    · rw [set_ne _ _ hpj]
      exact if_congr (and_congr_right fun _ => by omega) rfl rfl

theorem kalloc_priv {Q : Post (Option ℕ)} (hH : Holds L G h)
    (hQ : ∀ r G' h' b', Holds L G' h' → Rest ∅ G h G' h' → G.priv ⊆ G'.priv →
      (∀ q, r = some q → q ∈ G'.priv ∧ q ∉ G.priv) → Q r h' b') : Spec L E Q kalloc h b := by
  refine kalloc_spec (fun _ => hQ none G h b hH (.refl ∅ G h) (fun _ hq => hq) nofun) ?_
  intro p hp hfree _
  refine hQ (some p) _ _ _ (hH.addPriv hp hfree) (.addPriv hH hfree ∅ _) (fun _ hq => .inr hq) ?_
  rintro q hq
  cases hq
  exact ⟨.inl rfl, fun hx => hH.not_kern_of_none hfree (.inr hx)⟩

theorem memset_priv {Q : Post Unit} {c : UInt8} (hH : Holds L G h) (hq : q ∈ G.priv)
    (hQ : ∀ h', Holds L G h' → Rest ∅ G h G h' → Q () h' b) : Spec L E Q (memset q c) h b := by
  obtain ⟨d, hd⟩ := hH.own q hq
  refine write_spec hd (hQ _ (hH.setPriv hq) ⟨fun _ _ => rfl, fun _ _ => rfl, fun id _ => ?_⟩)
  exact congrFun (page_set fun id v => hH.not_mapped (.inl (.inr hq)) id v) id

theorem virtioDiskInit_spec {Q : Post (List ℕ)} (hE : E .virtioKalloc) (hH : Holds L G h)
    (hQ : ∀ disk G' h' b', Holds L G' h' → Rest ∅ G h G' h' → (∀ q ∈ disk, q ∈ G'.priv) →
      disk.Nodup → Q disk h' b') : Spec L E Q virtioDiskInit h b := by
  refine wp_seq (kalloc_priv hH ?_)
  intro r1 G1 h1 b1 hH1 hr1 _ hq1
  refine wp_seq (kalloc_priv hH1 ?_)
  intro r2 G2 h2 b2 hH2 hr2 hs2 hq2
  refine wp_seq (kalloc_priv hH2 ?_)
  intro r3 G3 h3 b3 hH3 hr3 hs3 hq3
  rcases r1 with _ | desc
  · exact hE
  rcases r2 with _ | avail
  · exact hE
  rcases r3 with _ | used
  · exact hE
  obtain ⟨hd, _⟩ := hq1 desc rfl
  obtain ⟨ha, hda⟩ := hq2 avail rfl
  obtain ⟨hu, hau⟩ := hq3 used rfl
  refine wp_seq (memset_priv hH3 (hs3 (hs2 hd)) ?_)
  intro h4 hH4 hr4
  refine wp_seq (memset_priv hH4 (hs3 ha) ?_)
  intro h5 hH5 hr5
  refine wp_seq (memset_priv hH5 hu ?_)
  intro h6 hH6 hr6
  refine hQ _ G3 h6 b3 hH6 (((((hr1.trans hr2).trans hr3).trans hr4).trans hr5).trans hr6) ?_ ?_
  · simp only [List.forall_mem_cons]
    exact ⟨hs3 (hs2 hd), hs3 ha, hu, nofun⟩
  · have h1 : desc ≠ avail := fun hx => hda (hx ▸ hd)
    have h2 : desc ≠ used := fun hx => hau (hx ▸ hs2 hd)
    have h3 : avail ≠ used := fun hx => hau (hx ▸ ha)
    simp [h1, h2, h3]

/-- After `virtio_disk_init` the only page table is the kernel's. -/
theorem bootMem_spec {Q : Post (ℕ × List ℕ)} (hE : ∀ e, E e)
    (hQ : ∀ kpt disk G h b, Holds L G h → (∀ id, id ≠ .kernel → G.node id = fun _ => none) →
      G.node .kernel .root = some kpt ∧ G.leaf .kernel = kernMap (regions L) (fun _ => .zero) →
      (∀ q ∈ disk, q ∈ G.priv) → disk.Nodup → Q (kpt, disk) h b) :
    Spec L E Q (bootMem L) (rawHeap L) b := by
  refine wp_seq (freerange_spec fun b1 => ?_)
  refine wp_seq (kvmmake_spec (hE _) (hE _) (Holds.empty L)
    (show Forest.empty.node .kernel .root = none from rfl) ?_)
  intro kpt G2 h2 b2 hk
  refine wp_seq (virtioDiskInit_spec (hE _) hk.holds ?_)
  intro disk G3 h3 b3 hH3 hr3 hdisk hnd
  refine hQ kpt disk G3 h3 b3 hH3 (fun id hid => ?_) ?_ hdisk hnd
  · rw [hr3.node id (Set.notMem_empty _), hk.rest.node id hid]
    rfl
  · rw [hr3.node _ (Set.notMem_empty _), hr3.leaf _ (Set.notMem_empty _)]
    exact ⟨hk.root, hk.map⟩

theorem Blank.zero : Blank .zero := ⟨rfl, rfl, rfl, rfl, rfl⟩

/-- **Booting.** -/
theorem boot_inv (hb : boot L = some m) : ∃ h G own, Inv L m h G own := by
  have hspec : Spec L (fun _ => True)
      (fun r h b => ∃ G own, Holds L G h ∧ (∀ k : Slot, SlotInv L G own k
          (update (fun _ => Proc.zero) 0 { r.1 with state := .runnable } k)) ∧
        (∀ q ∈ r.2.2, q ∈ G.priv ∧ own q = none) ∧ r.2.2.Nodup ∧ G.node .next .root = none ∧
        G.node .kernel .root = some r.2.1 ∧ G.leaf .kernel = kernMap (regions L) fun _ => .zero)
      (do
        let (kpgtbl, disk) ← bootMem L
        match ← allocprocMem L 0 1 .zero with
        | none => .fail .null
        | some p => .ret (p, kpgtbl, disk)) (rawHeap L) raw.free.length := by
    refine wp_seq (bootMem_spec (fun _ => trivial) ?_)
    intro kpt disk G h b hH hnode hkpt hdisk hnd
    have hroot : ∀ id, id ≠ Tid.kernel → G.node id .root = none := fun id hid => by
      rw [hnode id hid]
    refine wp_seq (allocprocMem_spec trivial hH .zero (hroot _ nofun) (hroot _ nofun)
      (fun _ _ _ _ => trivial) ?_)
    intro G' h' b' pages ha
    refine ⟨G', assign (fun _ => none) (slotPages G' 0 (allocproc .zero 0 1 pages)) 0, ha.holds,
      fun k => ?_,
      fun q hq => ?_, hnd, ?_, ?_⟩
    · by_cases hk : k = 0
      · subst hk
        rw [update_self]
        exact .new ha.holds ha.mem ha.view ha.user nofun rfl rfl rfl rfl rfl
      · rw [update_of_ne hk]
        refine .empty ha.holds ?_ ?_ .zero rfl
        · rw [ha.rest.node (.user k) (not_mem_pair (user_ne hk) nofun)]
          exact hroot _ nofun
        · rw [ha.rest.node (.kern k) (not_mem_pair nofun (kern_ne hk))]
          exact hroot _ nofun
    · rw [ha.priv]
      exact ⟨.inl (hdisk q hq), assign_not_mem fun hx => ha.fresh q hx (hdisk q hq)⟩
    · rw [ha.rest.node .next (not_mem_pair nofun nofun)]
      exact hroot _ nofun
    · have hk : Tid.kernel ∉ ({.user 0, .kern 0} : Set Tid) := not_mem_pair nofun nofun
      rw [ha.rest.node .kernel hk, ha.rest.leaf .kernel hk]
      exact hkpt
  unfold boot Machine.call at hb
  rcases wp_run (raw_consistent L) hspec with
    ⟨e, s', hrun, _⟩ | ⟨⟨p, kpt, disk⟩, s', h', hrun, hc, G', own', hH', hslots, hdisk, hnd, hnext,
      hk⟩
  · rw [hrun] at hb
    cases hb
  · rw [hrun] at hb
    cases hb
    exact ⟨h', G', own', ⟨hc, hH'⟩, hslots, hdisk, hnd, hnext, hk, fun _ hq => hq⟩

/-! ## Runs -/

/-- After the call `c` the machine is in order, as `f` makes it of the result and the new store. The
    only panic is the one for want of a page for a kernel page table. -/
def Restores (L : Layout) (m : Machine) (h : PageHeap) {α : Type} (c : K α)
    (f : α → Machine → Machine) : Prop :=
  Spec L (· = .uvmmap) (fun a h' _ => ∃ G', Holds L G' h' ∧ ∀ s, World L s h' G' →
    ∃ G'' own', Inv L (f a { m with store := s }) h' G'' own') c h m.store.free.length

/-- An event makes a call, or it cannot be. -/
theorem eventCall_cases (L : Layout) (m : Machine) (e : Ev) :
    (∃ (α : Type) (c : K α) (f : α → Machine → Machine), ∀ {β : Type}
      (k : {α : Type} → K α → (α → Machine → Machine) → β) z, eventCall L m k z e = k c f) ∨
    ∀ {β : Type} (k : {α : Type} → K α → (α → Machine → Machine) → β) z,
      eventCall L m k z e = z := by
  have hif : ∀ (C : Prop) [Decidable C] {α : Type} (c : K α) (f : α → Machine → Machine),
      (∃ (α : Type) (c' : K α) (f' : α → Machine → Machine), ∀ {β : Type}
        (k : {α : Type} → K α → (α → Machine → Machine) → β) z,
          (if C then k c f else z) = k c' f') ∨
      ∀ {β : Type} (k : {α : Type} → K α → (α → Machine → Machine) → β) z,
        (if C then k c f else z) = z := by
    intro C _ α c f
    by_cases hC : C
    · exact .inl ⟨α, c, f, fun _ _ => if_pos hC⟩
    · exact .inr fun _ _ => if_neg hC
  cases e with
  | kalloc => exact .inl ⟨_, _, _, fun _ _ => rfl⟩
  | _ => exact hif _ _ _

namespace Inv

variable (hI : Inv L m h G own)

include hI

/-- A call that changes one user page table, and the memory behind it. -/
theorem kept_call (hi : m.Live i) (hk : Kept L (.user i) (m.procs i).sz G h G' h') :
    ∃ G', Holds L G' h' ∧ ∀ s, World L s h' G' →
      ∃ G'' own', Inv L { m with store := s } h' G'' own' :=
  ⟨G', hk.holds, fun _ hw => ⟨G', own, hI.kept hi hw hk.frame.rest (hk.frame.root _)
    hk.frame.priv.ge ((hI.leaves i).touch hk.leaf)⟩⟩

/-- A slot without a process has no page tables. -/
theorem unused (hi : m.Live i) (hj : ¬ m.Live j) : i ≠ j ∧ Blank (m.procs j) ∧
    G.node (.user j) .root = none ∧ G.node (.kern j) .root = none := by
  have hb := (hI.slots j).blank (not_not.mp hj)
  refine ⟨?_, hb, ?_, ?_⟩
  · rintro rfl
    exact hj hi
  · rw [(hI.slots j).mem.pagetable, hb.pagetable]
    rfl
  · rw [(hI.slots j).mem.kpagetable, hb.kpagetable]
    rfl

/-- **One call.** -/
theorem event (e : Ev) : eventCall L m (Restores L m h) True e := by
  have hH := hI.world.holds
  unfold eventCall
  cases e with dsimp only
  | fork i j pid =>
    split_ifs with hlive
    obtain ⟨hij, hb, hu, hk⟩ := hI.unused hlive.1 hlive.2
    exact kfork_spec hij rfl hH (hI.root hlive.1) (hI.leaves i) hb hu hk
      (fun G' _ _ hf => ⟨G', hf.holds, fun _ hw => ⟨G', own, hI.unforked hij hlive.1 hw hf⟩⟩)
      fun G' _ _ _ hf => ⟨G', hf.holds, fun _ hw => ⟨G', _, hI.forked hij hlive.1 hw hf⟩⟩
  | freeproc i =>
    split_ifs
    exact freeprocMem_spec hH (hI.slots i).mem fun G' _ _ hv =>
      ⟨G', hv.holds, fun _ hw => ⟨G', own, hI.free hw hv⟩⟩
  | exec i upath uargv namei =>
    split_ifs with hi
    exact sysExec_spec hH (hI.userProc hi)
      (fun G' _ _ _ hf _ => ⟨G', hf.holds, fun _ hw => ⟨G', own, hI.fetched hi hw hf⟩⟩)
      fun G' _ _ _ _ _ hs _ =>
        ⟨G', hs.holds, fun _ hw => ⟨_, own, hI.started hi hw.consistent hs⟩⟩
  | sbrk i n t =>
    split_ifs with hi
    exact sysSbrk_spec hH (hI.root hi) (hI.leaves i) fun G' _ _ _ hr =>
      ⟨G', hr.holds, fun _ hw => ⟨G', own, hI.user hi hw hr.frame.rest (hr.frame.root _)
        hr.frame.priv.ge hr.leaves⟩⟩
  | load i va =>
    split_ifs with hi
    exact userLoad_spec (p := m.cur i) hH (hI.root hi) (hI.leaves i) fun _ _ _ _ hs =>
      hI.kept_call hi hs.toKept
  | store i va c =>
    split_ifs with hi
    exact userStore_spec (p := m.cur i) hH (hI.root hi) (hI.leaves i)
      (fun _ _ hp => hI.kept_call hi hp.toKept) fun _ _ _ _ _ hf =>
        hI.kept_call hi hf.same.toKept
  | copyin i srcva len =>
    split_ifs with hi
    refine copyinLoop_touch (S := Set.univ) (c := m.cur i) hH (hI.root hi) (hI.leaves i).size_le
      (fun _ _ => trivial) fun _ _ _ _ ht => hI.kept_call hi ⟨ht.holds, ht.frame, fun v => ?_⟩
    exact (ht.leaf v).imp_right fun hx => ⟨hx.2.1, hx.2.2.2⟩
  | copyout i dstva src =>
    split_ifs with hi
    exact copyoutLoop_spec (p := m.cur i) hH (hI.root hi) (hI.leaves i) (Nat.le_refl _)
      (fun _ _ _ hp _ => hI.kept_call hi hp.toKept) fun _ _ _ hk _ => hI.kept_call hi hk
  | kalloc =>
    refine kalloc_spec (fun _ => ⟨G, hH, fun _ hw => ⟨G, own, ?_⟩⟩) fun q hq hfree _ =>
      ⟨G.addPriv q, hH.addPriv hq hfree, fun _ hw => ⟨_, _, hI.take ?_ hw (.addPriv hH hfree ∅ _)⟩⟩
    · exact ⟨hw, hI.slots, hI.kern, hI.nodup, hI.next, hI.kernel, hI.disk⟩
    · exact fun hx => hH.not_kern_of_none hfree (.inr hx)
  | kfree q =>
    split_ifs with hq
    have hp := (hI.kern q hq.1).1
    exact kfree_priv hH hp fun _ _ => ⟨G.dropPriv q, hH.dropPriv hp, fun _ hw =>
      ⟨_, own, hI.give hq.1 hq.2 hw (.dropPriv hH hp ∅)⟩⟩

theorem step {e : Ev} (hs : step L m e = some m') : ∃ h' G' own', Inv L m' h' G' own' := by
  have he := hI.event e
  unfold Vm.step at hs
  rcases eventCall_cases L m e with ⟨α, c, f, heq⟩ | heq
  · rw [heq] at he hs
    unfold Machine.call at hs
    rcases hI.world.run_or he with ⟨_, _, hrun, _⟩ | ⟨a, s, h', G', hrun, hw, hinv⟩
    · rw [hrun] at hs
      cases hs
    · rw [hrun] at hs
      cases hs
      exact ⟨h', hinv s hw⟩
  · rw [heq] at hs
    cases hs

end Inv

/-- **Every state that the machine can reach is in order.** -/
theorem Reachable.inv (hr : Reachable L m) : ∃ h G own, Inv L m h G own := by
  obtain ⟨m₀, es, hb, hrun⟩ := hr
  exact hrun.inv_state (I := fun m => ∃ h G own, Inv L m h G own) (boot_inv hb)
    fun _ _ _ ⟨_, _, _, hI⟩ hs => hI.step hs

end Xv6.Vm
