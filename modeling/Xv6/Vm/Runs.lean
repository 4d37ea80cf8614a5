/-
  What processes see, in every state that the machine can reach.

  The page tables and the bytes of a process are read from the store. All statements start from a
  reachable state: memory has been shared by `fork`, grown by `sbrk`, replaced by `exec`.
-/
import Xv6.Vm.Machine

namespace Xv6.Vm

open Lib Process Function List

/-! ## What is read from a store -/

/-- The entry for virtual page `v`. -/
def entry (pagetable v : ℕ) : K Pte := do
  match ← walk pagetable (v * pgSize) false with
  | none => .ret .zero
  | some (t, k) => readPte t k

def entryIn (s : Store PageData) (pagetable v : ℕ) : Pte :=
  match ((entry pagetable v).run s).1 with
  | .ok e => e
  | .error _ => .zero

/-- The byte that user mode reads at `a`; zero where it has no page. -/
def byteIn (s : Store PageData) (pagetable a : ℕ) : UInt8 :=
  let e := entryIn s pagetable (a / pgSize)
  if e.v ∧ e.u then
    match s.data e.ppn with
    | .bytes f => f (a % pgSize)
    | .table _ => 0
  else 0

namespace Machine

variable (m : Machine) (i : Slot)

def entry (v : ℕ) : Pte := entryIn m.store (m.procs i).pagetable v

def byte (a : ℕ) : UInt8 := byteIn m.store (m.procs i).pagetable a

/-- The machine with another store. -/
def withStore (s : Store PageData) : Machine := { m with store := s }

/-- Every process reads what it did before. -/
def SameBytes (s : Store PageData) : Prop := ∀ j a, m.Live j → (m.withStore s).byte j a = m.byte j a

/-- Process `i` reads `src` at `dstva`, and all other bytes of all processes are as before. -/
def Wrote (dstva : ℕ) (src : List UInt8) (s : Store PageData) : Prop :=
  ∀ j a, m.Live j → (m.withStore s).byte j a =
    if j = i ∧ dstva ≤ a ∧ a < dstva + src.length then src.getD (a - dstva) 0 else m.byte j a

end Machine

variable {L : Layout} {G G' : Forest} {h h' : PageHeap} {id : Tid} {m : Machine}
  {own : ℕ → Option Slot}
  {s s' : Store PageData} {i j : Slot} {pt v va dstva : ℕ} {src : List UInt8} {S : Set ℕ}

section

variable (hw : World L s h G) (hroot : G.node id .root = some pt)

include hw hroot

theorem World.entry (v : ℕ) : entryIn s pt v = G.leaf id v := by
  have hdiv : v * pgSize / pgSize = v := Nat.mul_div_cancel v (by decide)
  have hspec : Spec L (fun _ => G.leaf id v = .zero) (fun e _ _ => e = G.leaf id v) (Vm.entry pt v)
    h
      s.free.length := by
    unfold Vm.entry
    by_cases hva : v * pgSize < maxVa
    · refine wp_seq (walk_find hw.holds hroot hva ?_ ?_)
      · intro hn
        rw [hdiv] at hn
        exact (hw.holds.toShape.leaf_zero hn).symm
      · intro t ht
        refine readPte_spec (hw.holds.table id _ t ht) ?_
        rw [Shape.entry (vpn_lt hva), hdiv]
    · unfold walk
      rw [if_pos (Nat.le_of_not_lt hva)]
      have hz := leaf_beyond hw.holds (Nat.le_of_not_lt hva) id
      rw [hdiv] at hz
      exact hz
  unfold entryIn
  rcases wp_run hw.consistent hspec with ⟨e, s', hrun, hz⟩ | ⟨e, s', h', hrun, _, he⟩
  · rw [hrun, hz]
  · rw [hrun]
    exact he

theorem World.byte (a : ℕ) : byteIn s pt a = G.byteAt h id a := by
  unfold byteIn Forest.byteAt
  rw [hw.entry hroot]
  dsimp only
  split
  · rename_i hvu
    have hc := hw.holds.cell_leaf (maps_iff.mpr ⟨hvu.1, hvu.2, rfl⟩)
    rw [hw.consistent.data _ _ _ hc]
  · rename_i hvu
    unfold Forest.page
    rw [if_neg hvu]

end

namespace Inv

variable (hI : Inv L m h G own)

include hI

theorem entry (hi : m.Live i) (v : ℕ) : m.entry i v = G.leaf (.user i) v :=
  hI.world.entry (hI.root hi) v

theorem byte (hi : m.Live i) (a : ℕ) : m.byte i a = G.byteAt h (.user i) a :=
  hI.world.byte (hI.root hi) a

theorem sameBytes (hw : World L s h' G')
    (hroot : ∀ j, G'.node (.user j) .root = G.node (.user j) .root)
    (hpage : ∀ j, m.Live j → G'.page h' (.user j) = G.page h (.user j)) : m.SameBytes s := by
  intro j a hj
  rw [hI.byte hj]
  refine (hw.byte ((hroot j).trans (hI.root hj)) a).trans ?_
  unfold Forest.byteAt
  rw [hpage j hj]

/-- A copy to the memory of process `i`. -/
theorem wrote (hw : World L s h' G')
    (hp : Put L (.user i) (m.procs i).sz dstva src G h G' h') : m.Wrote i dstva src s := by
  intro j a hj
  rw [hI.byte hj]
  refine (hw.byte ((hp.frame.root _).trans (hI.root hj)) a).trans ?_
  by_cases hji : j = i
  · rw [hji, hp.byte a]
    simp only [true_and]
  · rw [if_neg fun hx => hji hx.1]
    unfold Forest.byteAt
    rw [hp.frame.page (.user j) fun hx => hji (Tid.user.inj hx)]

end Inv

/-! ## A small machine -/

/-- Sixty pages behind the kernel. -/
def smallLayout : Layout where
  etext := 524289
  trampoline := 524288
  first := 524290
  top := 524350
  plicLen := 4096
  text := by decide
  code := by decide
  data := by decide
  ram := by decide
  devices := by decide

/-- The state after the calls `es`. -/
def after (L : Layout) (es : List Ev) : Option Machine := (boot L).bind fun m => exec (step L) m es

theorem after_any (es : List Ev) (P : Machine → Prop) [DecidablePred P]
    (h : (after L es).any (fun m => decide (P m)) = true) :
    ∃ m, after L es = some m ∧ Reachable L m ∧ P m := by
  cases hm : after L es with
  | none =>
    rw [hm] at h
    cases h
  | some m =>
    rw [hm] at h
    obtain ⟨m₀, hb, hrun⟩ := Option.bind_eq_some_iff.mp hm
    exact ⟨m, rfl, ⟨m₀, es, hb, run_of_exec hrun⟩, of_decide_eq_true h⟩

/-- The outcome of a call in `m`. -/
def Machine.result {α : Type} (m : Machine) (c : K α) : Option α := (c.run m.store).1.toOption

/-! ## Page faults -/

/-- A page that the process may store to: writable, shared by `fork`, or not mapped yet. -/
def Pte.Storable (e : Pte) : Prop := e.Writable ∨ e.Shared ∨ e.v = false

instance (e : Pte) : Decidable e.Storable := inferInstanceAs (Decidable (_ ∨ _))

theorem Pte.Storable.legal {e : Pte} (he : e.Storable) : e.Writable ∨ LegalFault e true :=
  he.imp_right fun hx => hx.elim (fun hs => .inr ⟨rfl, hs.1, hs.2.2.2⟩) .inl

/-- **`copyout` and stores of the process itself.** On pages below the size that the process may
    store to, and with three free pages for each page at which it would fault: both succeed and
    have the same effect if and only if no page is shared and `usertrap` admits the addresses of the
    pages that are not mapped. -/
theorem copyout_like_stores_iff (hr : Reachable L m) (hi : m.Live i)
    (hsz : dstva + src.length ≤ (m.procs i).sz)
    (hpages : ∀ v ∈ pagesOf dstva src.length, (m.entry i v).Storable)
    (hfree : 3 * (faulting (m.entry i) dstva src.length).card ≤ m.store.free.length) :
    ∃ r s r' s', (copyout L (m.cur i) (m.cur i).pagetable dstva src).run m.store = (.ok r, s) ∧
      (userStores L (m.cur i) dstva src).run m.store = (.ok r', s') ∧
      (r = true ∧ m.Wrote i dstva src s ∧ r' = true ∧ m.Wrote i dstva src s' ↔
        ∀ v ∈ pagesOf dstva src.length, ¬ (m.entry i v).Shared ∧
          ((m.entry i v).v = false → InBounds v)) := by
  obtain ⟨h, G, own, hI⟩ := hr.inv
  have he : m.entry i = G.leaf (.user i) := funext fun v => hI.entry hi v
  rw [he] at hpages hfree ⊢
  -- a writable page is mapped and not shared
  have hplain : ∀ {e : Pte}, e.Writable → ¬ e.Shared ∧ e.v = true := by
    refine fun hw => ⟨fun hs => ?_, hw.1⟩
    have := hw.2.2.symm.trans hs.2.2.1
    cases this
  obtain ⟨r, s, h1, G1, hrun, hw1, hcopy⟩ := hI.world.run
    (m := copyout L (m.cur i) (m.cur i).pagetable dstva src)
    (P := fun r h' G' =>
      r = true ∧ Put L (.user i) (m.procs i).sz dstva src G h G' h' ∧
          (∀ v ∈ pagesOf dstva src.length,
            (G.leaf (.user i) v).Writable ∨ (G.leaf (.user i) v).v = false) ∨
        r = false ∧ ∃ v ∈ pagesOf dstva src.length, Blocked (m.cur i) (m.store.free.length <
          3 * (lazyPages G (.user i) (pagesOf dstva src.length)).card) (G.leaf (.user i) v) v)
    (copyoutLoop_spec hI.world.holds (hI.root hi) (hI.leaves i) le_rfl
      (fun G' _ _ hp hall => ⟨G', hp.holds, .inl ⟨rfl, hp, hall⟩⟩)
      fun G' _ _ hk hex => ⟨G', hk.holds, .inr ⟨rfl, hex⟩⟩)
  obtain ⟨r', s', h2, G2, hrun', hw2, hstore⟩ :=
    hI.world.run (m := userStores L (m.cur i) dstva src)
    (P := fun r h' G' =>
      r = true ∧ Put L (.user i) (m.procs i).sz dstva src G h G' h' ∧
          (∀ v ∈ pagesOf dstva src.length, (G.leaf (.user i) v).Writable ∨ InBounds v) ∨
        r = false ∧ ∃ v ∈ pagesOf dstva src.length, ¬ (G.leaf (.user i) v).Writable ∧ ¬ InBounds v)
    (userStores_spec hI.world.holds (hI.root hi) (hI.leaves i) hsz (fun v hv => (hpages v hv).legal)
      hfree (fun G' _ _ hp hall => ⟨G', hp.holds, .inl ⟨rfl, hp, hall⟩⟩)
      fun G' _ _ hk hex => ⟨G', hk.holds, .inr ⟨rfl, hex⟩⟩)
  refine ⟨r, s, r', s', hrun, hrun', ?_, fun hall => ?_⟩
  · rintro ⟨rfl, _, rfl, _⟩ v hv
    obtain ⟨_, _, hc⟩ := hcopy.resolve_right fun hx => nomatch hx.1
    obtain ⟨_, _, hs⟩ := hstore.resolve_right fun hx => nomatch hx.1
    refine ⟨fun hsh => ?_, fun h0 => (hs v hv).resolve_left fun hw => ?_⟩
    · rcases hc v hv with hw | h0
      · exact (hplain hw).1 hsh
      · exact nomatch hsh.1.symm.trans h0
    · exact nomatch (hplain hw).2.symm.trans h0
  · have hcopy := hcopy.resolve_right ?_
    · have hstore := hstore.resolve_right ?_
      · exact ⟨hcopy.1, hI.wrote hw1 hcopy.2.1, hstore.1, hI.wrote hw2 hstore.2.1⟩
      · rintro ⟨_, v, hv, hnw, hout⟩
        rcases hpages v hv with hw | hs | h0
        · exact hnw hw
        · exact (hall v hv).1 hs
        · exact hout ((hall v hv).2 h0)
    · rintro ⟨_, v, hv, ⟨hvv, hnw⟩ | ⟨h0, hbig | hfew⟩⟩
      · rcases hpages v hv with hw | hs | h0
        · exact hnw hw
        · exact (hall v hv).1 hs
        · exact nomatch hvv.symm.trans h0
      · obtain ⟨k, hk, rfl⟩ := mem_pagesOf.mp hv
        have := Nat.div_mul_le_self (dstva + k) pgSize
        have hbig : (m.procs i).sz ≤ (dstva + k) / pgSize * pgSize := hbig
        omega
      · have hsub : lazyPages G (.user i) (pagesOf dstva src.length) ⊆
            faulting (G.leaf (.user i)) dstva src.length := by
          refine Finset.monotone_filter_right _ fun v _ h0 hw => ?_
          exact nomatch (hplain hw).2.symm.trans h0
        have := Finset.card_le_card hsub
        omega

/-- Memory that was grown lazily. -/
theorem copyout_like_stores_lazy :
    ∃ m, after smallLayout [.sbrk 0 8192 2] = some m ∧ m.Live 0 ∧ 4096 + 1 ≤ (m.procs 0).sz ∧
      (∀ v ∈ pagesOf 4096 1, (m.entry 0 v).Storable ∧ (m.entry 0 v).v = false) ∧
      3 * (faulting (m.entry 0) 4096 1).card ≤ m.store.free.length ∧
      ∃ r s r' s', (copyout smallLayout (m.cur 0) (m.cur 0).pagetable 4096 [65]).run m.store =
        (.ok r, s) ∧
        (userStores smallLayout (m.cur 0) 4096 [65]).run m.store = (.ok r', s') ∧
        (r = true ∧ m.Wrote 0 4096 [65] s ∧ r' = true ∧ m.Wrote 0 4096 [65] s' ↔
          ∀ v ∈ pagesOf 4096 1, ¬ (m.entry 0 v).Shared ∧
          ((m.entry 0 v).v = false → InBounds v)) := by
  obtain ⟨m, hm, hr, hi, hsz, hpages, hfree⟩ := after_any (L := smallLayout) [.sbrk 0 8192 2]
    (fun m => m.Live 0 ∧ 4096 + 1 ≤ (m.procs 0).sz ∧
      (∀ v ∈ pagesOf 4096 1, (m.entry 0 v).Storable ∧ (m.entry 0 v).v = false) ∧
      3 * (faulting (m.entry 0) 4096 1).card ≤ m.store.free.length) (by decide +kernel)
  exact ⟨m, hm, hi, hsz, hpages, hfree,
    copyout_like_stores_iff hr hi hsz (fun v hv => (hpages v hv).1) hfree⟩

/-- After `fork` the process can store to its page, and `copyout` fails. -/
theorem copyout_fails_after_fork :
    ∃ m, after smallLayout [.sbrk 0 8192 1, .fork 0 1 2] = some m ∧ Reachable smallLayout m ∧
    m.Live 0 ∧
      4096 + 1 ≤ (m.procs 0).sz ∧ (∀ v ∈ pagesOf 4096 1, (m.entry 0 v).Shared) ∧
      3 * (faulting (m.entry 0) 4096 1).card ≤ m.store.free.length ∧
      m.result (copyout smallLayout (m.cur 0) (m.cur 0).pagetable 4096 [65]) = some false ∧
      m.result (userStores smallLayout (m.cur 0) 4096 [65]) = some true :=
  after_any _ _ (by decide +kernel)

/-! ## `exec` -/

/-- The call has left everything as it was, but pages of `S` below the size of process `i` may have
    been mapped, with zeros. -/
structure Unchanged (L : Layout) (m : Machine) (i : Slot) (S : Set ℕ) (s : Store PageData) :
    Prop where
  bytes : m.SameBytes s
  entry : ∀ j v, m.Live j →
    j ≠ i ∨ v ∉ S ∨ (m.procs i).sz ≤ v * pgSize ∨ (m.entry i v).v = true →
    (m.withStore s).entry j v = m.entry j v
  free : ∀ q ∈ s.free, q ∈ m.store.free
  count : ∀ q ∈ L.managed, q ∉ m.store.free → s.count q = m.store.count q
  exact : (∀ v ∈ S, v * pgSize < (m.procs i).sz → (m.entry i v).v = true) →
    (∀ q, q ∈ s.free ↔ q ∈ m.store.free) ∧ ∀ q ∈ L.managed, s.count q = m.store.count q

theorem World.same_store (hw : World L s h G) (hw' : World L s' h G') :
    (∀ q, q ∈ s'.free ↔ q ∈ s.free) ∧ ∀ q ∈ L.managed, s'.count q = s.count q := by
  constructor
  · intro q
    rw [hw.consistent.free, hw'.consistent.free]
  · intro q hq
    rw [hw.consistent.count q hq, hw'.consistent.count q hq]

theorem Inv.unchanged (hI : Inv L m h G own) (hi : m.Live i) (hw : World L s h' G')
    (hf : Fetched L i (m.procs i) S G h [] G' h') : Unchanged L m i S s := by
  have hroot : ∀ j, G'.node (.user j) .root = G.node (.user j) .root := by
    intro j
    by_cases hji : j = i
    · rw [hji, hf.proc.root, hI.root hi]
    · rw [hf.node _ fun hx => hji (Tid.user.inj hx)]
  refine ⟨hI.sameBytes hw hroot fun j _ => hf.page _, fun j v hj hv => ?_, fun q hq => ?_,
    fun q hq hnf => ?_, fun hS => ?_⟩
  · rw [hI.entry hj]
    refine (hw.entry ((hroot j).trans (hI.root hj)) v).trans ?_
    by_cases hji : j = i
    · subst hji
      rw [hI.entry hi] at hv
      exact hf.mapped v (hv.resolve_left fun hx => hx rfl)
    · rw [hf.leaf _ fun hx => hji (Tid.user.inj hx)]
  · obtain ⟨hR, hn⟩ := (hw.consistent.free q).mp hq
    exact (hI.world.consistent.free q).mpr ⟨hR, hf.grows.none_before hf.holds hn⟩
  · rw [hI.world.consistent.free] at hnf
    have hne : h q ≠ none := fun hn => hnf ⟨hq, hn⟩
    rw [hw.consistent.count q hq, hI.world.consistent.count q hq]
    by_cases hN : G.Node q
    · obtain ⟨_, _, hn⟩ := hN
      obtain ⟨_, _, hn'⟩ := hf.grows.nodes q ⟨_, _, hn⟩
      rw [hI.world.holds.table _ _ _ hn, hf.holds.table _ _ _ hn']
      rfl
    · rw [hf.grows.cell q hne hN]
  · have hS' : ∀ v ∈ S, v * pgSize < (m.procs i).sz → (G.leaf (.user i) v).v = true := by
      intro v hv hlt
      rw [← hI.entry hi]
      exact hS v hv hlt
    obtain ⟨_, rfl⟩ := hf.forest_eq hS'
    exact hI.world.same_store hw

/-- `sys_exec` fetches its arguments. -/
theorem Inv.fetch (hI : Inv L m h G own) (hi : m.Live i) (uargv : ℕ) :
    ∃ r s h' G', (fetchArgv L (m.procs i) uargv maxArg 0 []).run m.store = (.ok r, s) ∧
      World L s h' G' ∧ Fetched L i (m.procs i) (argvPages uargv) G h r.1 G' h' ∧
      (r.2 = true → r.1.length < maxArg) :=
  hI.world.run (m := fetchArgv L (m.procs i) uargv maxArg 0 [])
    (P := fun r h' G' => Fetched L i (m.procs i) (argvPages uargv) G h r.1 G' h' ∧
      (r.2 = true → r.1.length < maxArg))
    (fetchArgv_spec (Nat.zero_add _) rfl (.start hI.world.holds (hI.userProc hi) _)
      fun G' _ _ _ _ hf hlen => ⟨G', hf.holds, hf, hlen⟩)

/-- **A failed `exec` changes nothing.** `sys_exec` may have mapped pages of `argv[]` that were
    grown lazily; `kexec` on the arguments that `sys_exec` has fetched leaves the free pages and all
    counts exactly as they were. -/
theorem failed_exec_changes_nothing (hr : Reachable L m) (hi : m.Live i) (upath uargv : ℕ)
    (namei : List UInt8 → Option Inode) (path : List UInt8) (ip : Option Inode) :
    (∃ r s, (sysExec L (m.procs i) upath uargv namei).run m.store = (.ok r, s) ∧
      (r.1 = none → FsCall.Balanced r.2 ∧ Unchanged L m i (argvPages uargv) s)) ∧
    ∃ argv ok s, (fetchArgv L (m.procs i) uargv maxArg 0 []).run m.store = (.ok (argv, ok), s) ∧
      (ok = true → ∃ r s', (kexec L (m.procs i) path ip argv).run s = (.ok r, s') ∧
        (r.1 = none → FsCall.Balanced r.2 ∧ Unchanged L (m.withStore s) i ∅ s')) := by
  obtain ⟨h, G, own, hI⟩ := hr.inv
  constructor
  · obtain ⟨r, s, h', G', hrun, hw, hP⟩ :=
      hI.world.run (m := sysExec L (m.procs i) upath uargv namei)
      (P := fun r h' G' => r.1 = none → FsCall.Balanced r.2 ∧
        Fetched L i (m.procs i) (argvPages uargv) G h [] G' h')
      (sysExec_spec hI.world.holds (hI.userProc hi)
        (fun G' _ _ _ hf hb => ⟨G', hf.holds, fun _ => ⟨hb, hf⟩⟩)
        fun G' _ _ _ _ _ hst _ => ⟨G', hst.holds, nofun⟩)
    exact ⟨r, s, hrun, fun hnone => ⟨(hP hnone).1, hI.unchanged hi hw (hP hnone).2⟩⟩
  · obtain ⟨⟨argv, ok⟩, s, h1, G1, hrun, hw, hf, hlen⟩ := hI.fetch hi uargv
    have hI1 := hI.fetched hi hw hf
    refine ⟨argv, ok, s, hrun, fun hok => ?_⟩
    obtain ⟨r, s', h', G', hrun', hw', hP⟩ := hw.run (m := kexec L (m.procs i) path ip argv)
      (P := fun r h' G' => r.1 = none → FsCall.Balanced r.2 ∧ h' = h1 ∧ G' = G1)
      (kexec_spec hw.holds hf.proc hf.argPages (hlen hok)
        (fun _ => ⟨G1, hw.holds, fun _ => ⟨FsCall.ofExec_balanced ip, rfl, rfl⟩⟩)
        fun G' _ _ _ hst => ⟨G', hst.holds, nofun⟩)
    refine ⟨r, s', hrun', fun hnone => ?_⟩
    obtain ⟨hb, rfl, rfl⟩ := hP hnone
    exact ⟨hb, hI1.unchanged hi hw' (.start hw.holds hf.proc ∅)⟩

/-! ## A small program -/

def ofBytes (l : List UInt8) : Inode :=
  ⟨fun off n => (l.drop off).take n, fun _ _ => length_take_le _ _⟩

/-- A header for `memsz` bytes at address 0, of which `filesz` are in the file. -/
def phdr (filesz memsz : ℕ) : List UInt8 :=
  [1, 0, 0, 0, 5, 0, 0, 0] ++ le64 0 ++ le64 0 ++ le64 0 ++ le64 filesz ++ le64 memsz ++ le64 0

/-- A file with these program headers, which follow the ELF header. -/
def elf (phs : List (List UInt8)) : Inode :=
  ofBytes ([0x7f, 0x45, 0x4c, 0x46] ++ replicate 20 0 ++ le64 0 ++ le64 64 ++ replicate 16 0 ++
    [UInt8.ofNat phs.length, 0] ++ replicate 6 0 ++ phs.flatten)

/-- The string "a" at 4096, and at 4104 a vector that names it twice. -/
def args : List UInt8 := [97, 0, 0, 0, 0, 0, 0, 0] ++ le64 4096 ++ le64 4096 ++ le64 0

def argsCalls : List Ev := [.sbrk 0 8192 1, .copyout 0 4096 args]

/-- The second program header is bad, after a segment has been loaded. -/
theorem failed_exec_changes_nothing_loaded :
    ∃ m, after smallLayout argsCalls = some m ∧ m.Live 0 ∧
      ((m.result (loadHeaders smallLayout (m.procs 0).trapframe (elf [phdr 4 8, phdr 8 4])
        1 64)).join.map
        (·.2)) = some (8, true) ∧
      (m.result (sysExec smallLayout (m.procs 0) 4096 4104 fun _ =>
        some (elf [phdr 4 8, phdr 8 4]))).map (·.1.isSome) = some false ∧
      (∃ r s, (sysExec smallLayout (m.procs 0) 4096 4104 fun _ =>
        some (elf [phdr 4 8, phdr 8 4])).run
          m.store = (.ok r, s) ∧
        (r.1 = none → FsCall.Balanced r.2 ∧ Unchanged smallLayout m 0 (argvPages 4104) s)) ∧
      ∃ argv ok s, (fetchArgv smallLayout (m.procs 0) 4104 maxArg 0 []).run m.store =
        (.ok (argv, ok), s) ∧
        (ok = true →
          ∃ r s', (kexec smallLayout (m.procs 0) [97] (some (elf [phdr 4 8, phdr 8 4])) argv).run
            s = (.ok r, s') ∧
          (r.1 = none → FsCall.Balanced r.2 ∧ Unchanged smallLayout (m.withStore s) 0 ∅ s')) := by
  obtain ⟨m, hm, hr, hi, hload, hfail⟩ := after_any (L := smallLayout) argsCalls
    (fun m => m.Live 0 ∧
      ((m.result (loadHeaders smallLayout (m.procs 0).trapframe (elf [phdr 4 8, phdr 8 4])
        1 64)).join.map
        (·.2)) = some (8, true) ∧
      (m.result (sysExec smallLayout (m.procs 0) 4096 4104 fun _ =>
        some (elf [phdr 4 8, phdr 8 4]))).map (·.1.isSome) = some false) (by decide +kernel)
  exact ⟨m, hm, hi, hload, hfail, failed_exec_changes_nothing hr hi 4096 4104 _ [97] _⟩

/-- The vector is in a page that was grown lazily. -/
theorem failed_exec_maps_argv :
    ∃ m, after smallLayout [.sbrk 0 8192 1, .sbrk 0 4096 2] = some m ∧ Reachable smallLayout m ∧
      m.Live 0 ∧
      (m.result (sysExec smallLayout (m.procs 0) 4096 8192 fun _ => none)).map
        (·.1.isSome) = some false ∧
      ((sysExec smallLayout (m.procs 0) 4096 8192 fun _ => none).run m.store).2.free.length + 1 =
        m.store.free.length :=
  after_any _ _ (by decide +kernel)

/-- **No file panics the loader**, whatever its bytes and however few pages are free: neither
    through `sys_exec`, nor in `kexec` on the arguments that `sys_exec` has fetched. After any
    number of program headers all pages below the size reached are mapped for user mode. -/
theorem exec_never_panics (hr : Reachable L m) (hi : m.Live i) (upath uargv : ℕ)
    (namei : List UInt8 → Option Inode) (path : List UInt8) (ip : Inode) (k off : ℕ) :
    (∃ r s, (sysExec L (m.procs i) upath uargv namei).run m.store = (.ok r, s)) ∧
    (∃ argv ok s, (fetchArgv L (m.procs i) uargv maxArg 0 []).run m.store = (.ok (argv, ok), s) ∧
      (ok = true → ∃ r s', (kexec L (m.procs i) path (some ip) argv).run s = (.ok r, s'))) ∧
    ∃ r s, (loadHeaders L (m.procs i).trapframe ip k off).run m.store = (.ok r, s) ∧
      ∀ pt sz ok, r = some (pt, sz, ok) → ∀ v, v * pgSize < sz →
        (entryIn s pt v).v = true ∧ (entryIn s pt v).u = true := by
  obtain ⟨h, G, own, hI⟩ := hr.inv
  refine ⟨?_, ?_, ?_⟩
  · obtain ⟨r, s, _, _, hrun, _⟩ := hI.world.run (m := sysExec L (m.procs i) upath uargv namei)
      (P := fun _ _ _ => True) (sysExec_spec hI.world.holds (hI.userProc hi)
        (fun G' _ _ _ hf _ => ⟨G', hf.holds, trivial⟩) fun G' _ _ _ _ _ hst _ =>
          ⟨G', hst.holds, trivial⟩)
    exact ⟨r, s, hrun⟩
  · obtain ⟨⟨argv, ok⟩, s, h1, G1, hrun, hw, hf, hlen⟩ := hI.fetch hi uargv
    refine ⟨argv, ok, s, hrun, fun hok => ?_⟩
    obtain ⟨r, s', _, _, hrun', _⟩ := hw.run (m := kexec L (m.procs i) path (some ip) argv)
      (P := fun _ _ _ => True) (kexec_spec hw.holds hf.proc hf.argPages (hlen hok)
        (fun _ => ⟨G1, hw.holds, trivial⟩) fun G' _ _ _ hst => ⟨G', hst.holds, trivial⟩)
    exact ⟨r, s', hrun'⟩
  · obtain ⟨r, s, _, G', hrun, hw, hP⟩ := hI.world.run
      (m := loadHeaders L (m.procs i).trapframe ip k off)
      (P := fun r _ G' => ∀ pt sz ok, r = some (pt, sz, ok) → G'.node .next .root = some pt ∧
        Mapped (G'.leaf .next) 0 (pageCount sz))
      (loadHeaders_spec hI.world.holds hI.next (fun _ => ⟨G, hI.world.holds, nofun⟩)
        fun G' _ _ _ _ _ hI' hmap => ⟨G', hI'.holds, by rintro _ _ _ ⟨⟩; exact ⟨hI'.root, hmap⟩⟩)
    refine ⟨r, s, hrun, fun pt sz ok hr v hv => ?_⟩
    obtain ⟨hroot, hmap⟩ := hP pt sz ok hr
    rw [hw.entry hroot]
    exact hmap v (Nat.zero_le _) (lt_pageCount.mpr hv)

/-- A segment is accepted. -/
theorem exec_never_panics_segment :
    ∃ m, after smallLayout argsCalls = some m ∧ m.Live 0 ∧
      ((m.result (loadHeaders smallLayout (m.procs 0).trapframe (elf [phdr 4 8]) 1 64)).join.map
        (·.2)) = some (8, true) ∧
      (∃ r s, (sysExec smallLayout (m.procs 0) 4096 4104 fun _ => some (elf [phdr 4 8])).run
        m.store =
        (.ok r, s)) ∧
      (∃ argv ok s, (fetchArgv smallLayout (m.procs 0) 4104 maxArg 0 []).run m.store =
          (.ok (argv, ok), s) ∧
        (ok = true → ∃ r s', (kexec smallLayout (m.procs 0) [97] (some (elf [phdr 4 8])) argv).run
          s =
          (.ok r, s'))) ∧
      ∃ r s, (loadHeaders smallLayout (m.procs 0).trapframe (elf [phdr 4 8]) 1 64).run m.store =
        (.ok r, s) ∧
        ∀ pt sz ok, r = some (pt, sz, ok) → ∀ v, v * pgSize < sz →
          (entryIn s pt v).v = true ∧ (entryIn s pt v).u = true := by
  obtain ⟨m, hm, hr, hi, hload⟩ := after_any (L := smallLayout) argsCalls
    (fun m => m.Live 0 ∧
      ((m.result (loadHeaders smallLayout (m.procs 0).trapframe (elf [phdr 4 8]) 1
      64)).join.map (·.2)) = some (8, true)) (by decide +kernel)
  exact ⟨m, hm, hi, hload, exec_never_panics hr hi 4096 4104 _ [97] _ 1 64⟩

end Xv6.Vm
