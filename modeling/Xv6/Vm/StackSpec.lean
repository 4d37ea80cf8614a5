/-
  The argument stack that `kexec` builds, and `kexec` as a whole.

  The strings are pushed one below the other, then the array of their addresses. `Pushed` is the
  invariant of the loop, `ArgStack` what the new program finds.
-/
import Xv6.Vm.ExecSpec

namespace Xv6.Vm

open Lib Process Function List

variable {L : Layout} {E : Panic → Prop} {G G' G0 : Forest} {h h' h0 : PageHeap} {id : Tid}
  {g q n m va pt sz sp base top b b' : ℕ} {B B' : ℕ → UInt8} {strs : List (List UInt8)}
  {ptrs : List ℕ} {src : List UInt8}

/-! ## Bytes in memory -/

variable {argv : List ℕ} {a : ℕ}

theorem slice_congr {k : ℕ} (hB : ∀ i, i < k → B' (a + i) = B (a + i)) :
    slice B' a k = slice B a k :=
  map_congr_left fun i hi => hB i (List.mem_range.mp hi)

theorem slice_eq {l : List UInt8} (hB : ∀ i, i < l.length → B (a + i) = l.getD i 0) :
    slice B a l.length = l := by
  refine ext_getElem (by simp [slice]) fun i h1 h2 => ?_
  have : (slice B a l.length)[i] = B (a + i) := by simp [slice]
  rw [this, hB i h2, getD_eq_getElem _ _ h2]

/-- `B'` is `B` with `src` at `a`. -/
def Stored (B : ℕ → UInt8) (a : ℕ) (src : List UInt8) (B' : ℕ → UInt8) : Prop :=
  ∀ x, B' x = if a ≤ x ∧ x < a + src.length then src.getD (x - a) 0 else B x

theorem Stored.at (hs : Stored B a src B') : slice B' a src.length = src := by
  refine slice_eq fun i hi => ?_
  rw [hs, if_pos (by omega)]
  congr 1
  omega

theorem Stored.above {x k : ℕ} (hs : Stored B a src B') (hx : a + src.length ≤ x) :
    slice B' x k = slice B x k := by
  refine slice_congr fun i _ => ?_
  rw [hs, if_neg (by omega)]

theorem length_le64 (x : ℕ) : (le64 x).length = 8 := by simp [le64]

theorem length_flatMap_le64 (l : List ℕ) : (l.flatMap le64).length = 8 * l.length := by
  induction l with
  | nil => rfl
  | cons x l ih =>
    rw [flatMap_cons, length_append, ih, length_le64, length_cons]
    omega

/-! ## The loop over the arguments -/

/-- The space that `n` bytes take on the stack. -/
def room (n : ℕ) : ℕ := (n + 15) / 16 * 16

theorem push_room {k : ℕ} (hsp : sp % 16 = 0) (hpos : 0 < push sp k) : push sp k + room k = sp := by
  unfold push at hpos ⊢
  unfold room
  omega

theorem push_mod (sp k : ℕ) : push sp k % 16 = 0 := by
  unfold push
  omega

theorem le_room (n : ℕ) : n ≤ room n := by
  unfold room
  omega

/-- The strings `strs` stand at `ptrs`, one below the other, between `sp` and `top`. -/
structure Pushed (B : ℕ → UInt8) (sp top : ℕ) (strs : List (List UInt8)) (ptrs : List ℕ) :
    Prop where
  aligned : sp % 16 = 0
  size : sp + (strs.map fun s => room (s.length + 1)).sum = top
  strings : List.Forall₂
    (fun s a => sp ≤ a ∧ a + s.length + 1 ≤ top ∧ slice B a (s.length + 1) = s ++ [0])
    strs ptrs
  apart : (strs.zip ptrs).Pairwise fun x y => y.2 + y.1.length + 1 ≤ x.2

theorem Pushed.nil (B : ℕ → UInt8) (htop : top % 16 = 0) : Pushed B top top [] [] :=
  ⟨htop, Nat.add_zero top, .nil, .nil⟩

/-- The strings above what is stored stay. -/
theorem Pushed.strings_of (hp : Pushed B sp top strs ptrs) (hs : Stored B a src B')
    (ha : a + src.length ≤ sp) {lo : ℕ} (hlo : lo ≤ sp) :
    List.Forall₂ (fun s a => lo ≤ a ∧ a + s.length + 1 ≤ top ∧ slice B' a (s.length + 1) = s ++ [0])
      strs ptrs := by
  refine hp.strings.imp fun s x ⟨h1, h2, h3⟩ => ⟨by omega, h2, ?_⟩
  rw [hs.above (by omega), h3]

theorem Pushed.snoc {s : List UInt8} (hp : Pushed B sp top strs ptrs)
    (hpos : 0 < push sp (s.length + 1)) (hs : Stored B (push sp (s.length + 1)) (s ++ [0]) B') :
    Pushed B' (push sp (s.length + 1)) top (strs ++ [s]) (ptrs ++ [push sp (s.length + 1)]) := by
  have hroom := push_room hp.aligned hpos
  have hle := le_room (s.length + 1)
  have hsize := hp.size
  have hlen : (s ++ [0]).length = s.length + 1 := by simp
  have hat := hs.at
  rw [hlen] at hat
  refine ⟨push_mod _ _, ?_, ?_, ?_⟩
  · rw [map_append, sum_append, map_singleton, sum_singleton]
    omega
  · refine rel_append (hp.strings_of hs (by omega) (by omega)) (.cons ⟨Nat.le_refl _, ?_, hat⟩ .nil)
    omega
  · rw [zip_append hp.strings.length_eq, pairwise_append]
    refine ⟨hp.apart, pairwise_singleton _ _, ?_⟩
    intro x hx y hy
    obtain rfl := List.mem_singleton.mp hy
    obtain ⟨h1, _, _⟩ := List.forall₂_iff_zip.mp hp.strings |>.2 hx
    show push sp (s.length + 1) + s.length + 1 ≤ x.2
    omega

/-- The string in a page of `argv[]`. -/
def argStr (h : PageHeap) (arg : ℕ) : List UInt8 :=
  match (h arg).val with
  | some (.bytes f) => cstr f
  | _ => []

/-- The pages of `argv[]` can be read. -/
def ArgPages (h : PageHeap) (argv : List ℕ) : Prop :=
  ∀ a ∈ argv, ∃ n f, h a = some (n, .bytes f)

theorem Image.arg_cell {f : ℕ → UInt8} {k : ℕ} (hI : Image L id G0 h0 pt n G h)
    (ha : h0 a = some (k, .bytes f)) : h a = some (k, .bytes f) := by
  rw [hI.keeps.cell a (by simp [ha]), ha]
  rintro ⟨id', π, hN⟩
  rw [hI.base.table id' π a hN] at ha
  cases ha

/-- A copy to the stack page. -/
theorem Image.stack_copy {Q : Post Bool} {p : Cur} (hI : Image L id G0 h0 pt n G h)
    (hm : (G.leaf id g).maps q = true) (hw : (G.leaf id g).w = true) (hne : src ≠ [])
    (hlo : g * pgSize ≤ va) (hhi : va + src.length ≤ (g + 1) * pgSize)
    (hQ : ∀ h', Image L id G0 h0 pt n G h' → Stored (G.byteAt h id) va src (G.byteAt h' id) →
      Q true h' b) : Spec L E Q (copyout L p pt va src) h b := by
  have hpos : 0 < src.length := List.length_pos_iff.mpr hne
  obtain ⟨hdiv, hlen⟩ : va / pgSize = g ∧ va % pgSize + src.length ≤ pgSize := by
    unfold pgSize at hlo hhi ⊢
    omega
  have hone := hI.holds.writable _ _ _ hm hw
  subst hdiv
  exact copyout_page hI.holds hI.root hm hw hne hlen
    (hQ _ (hI.write hm _) (Put.of_write hI.holds hm hone hlen 0).byte)

theorem setUstack_spec {α : Type} {Q : Post α} {x : ℕ} {m : List ℕ → K α}
    (hlt : ptrs.length < maxArg) (hm : Spec L E Q (m (ptrs ++ [x])) h b) :
    Spec L E Q (do let ustack ← setUstack ptrs x; m ustack) h b := by
  unfold setUstack
  rw [if_pos hlt]
  exact hm

theorem pushArgs_spec {Q : Post (Option (ℕ × List ℕ))} {p : Cur}
    (hI : Image L id G0 h0 pt n G h) (hm : (G.leaf id g).maps q = true)
    (hw : (G.leaf id g).w = true) (hg : 0 < g) (hargs : ArgPages h0 argv)
    (hp : Pushed (G.byteAt h id) sp ((g + 1) * pgSize) strs ptrs) (hsp : sp ≤ (g + 1) * pgSize)
    (hbad : ∀ h' b', Image L id G0 h0 pt n G h' → Q none h' b')
    (hok : ∀ h' b' sp' ptrs', Image L id G0 h0 pt n G h' →
      Pushed (G.byteAt h' id) sp' ((g + 1) * pgSize) (strs ++ argv.map (argStr h0)) ptrs' →
      sp' ≤ (g + 1) * pgSize → Q (some (sp', ptrs')) h' b') :
    Spec L E Q (pushArgs L p pt (g * pgSize) argv sp ptrs) h b := by
  induction argv generalizing sp strs ptrs h b with
  | nil =>
    refine hok h b sp ptrs hI ?_ hsp
    rwa [map_nil, append_nil]
  | cons arg argv ih =>
    unfold pushArgs
    split
    · exact hbad h b hI
    rename_i hfull
    obtain ⟨k, f, hf⟩ := hargs arg mem_cons_self
    have hstr : argStr h0 arg = cstr f := by
      unfold argStr
      rw [hf]
      rfl
    refine wp_seq (readBytes_spec (hI.arg_cell hf) ?_)
    generalize cstr f = str at hstr ⊢
    dsimp only
    split
    · exact hbad h b hI
    rename_i hge
    have hgpos : 0 < g * pgSize := Nat.mul_pos hg (by decide)
    have hpos : 0 < push sp (str.length + 1) := by omega
    have hroom := push_room hp.aligned hpos
    have hle := le_room (str.length + 1)
    have hge := Nat.le_of_not_lt hge
    refine wp_seq (hI.stack_copy hm hw ?_ hge ?_ ?_)
    · exact append_ne_nil_of_right_ne_nil _ (cons_ne_nil _ _)
    · rw [length_append, length_singleton]
      omega
    · intro h' hI' hst
      rw [if_pos rfl]
      refine setUstack_spec (Nat.lt_of_not_le hfull) ?_
      refine ih hI' (fun a ha => hargs a (mem_cons_of_mem _ ha)) (hp.snoc hpos hst) (by omega) ?_
      intro h'' b'' sp' ptrs' hI'' hp'' hsp'
      refine hok h'' b'' sp' ptrs' hI'' ?_ hsp'
      rwa [map_cons, hstr, append_cons]

/-! ## The stack -/

/-- What `main(argc, argv)` finds at `sp`: the array of addresses with its zero word, and above it
    the strings, all on the page between `base` and `top`. -/
structure ArgStack (B : ℕ → UInt8) (sp base top : ℕ) (strs : List (List UInt8)) (ptrs : List ℕ) :
    Prop where
  aligned : sp % 16 = 0
  base_le : base ≤ sp
  array : slice B sp (8 * (strs.length + 1)) = (ptrs ++ [0]).flatMap le64
  strings : List.Forall₂ (fun s a => sp + 8 * (strs.length + 1) ≤ a ∧ a + s.length + 1 ≤ top ∧
    slice B a (s.length + 1) = s ++ [0]) strs ptrs
  apart : (strs.zip ptrs).Pairwise fun x y => y.2 + y.1.length + 1 ≤ x.2
  size : sp + room (8 * (strs.length + 1)) + (strs.map fun s => room (s.length + 1)).sum = top

theorem Pushed.array (hp : Pushed B sp top strs ptrs)
    (hbase : base ≤ push sp ((ptrs.length + 1) * 8))
    (hpos : 0 < base)
    (hs : Stored B (push sp ((ptrs.length + 1) * 8)) ((ptrs ++ [0]).flatMap le64) B') :
    ArgStack B' (push sp ((ptrs.length + 1) * 8)) base top strs ptrs := by
  have hlen := hp.strings.length_eq
  have hflat : ((ptrs ++ [0]).flatMap le64).length = 8 * (strs.length + 1) := by
    rw [length_flatMap_le64, length_append, length_singleton, hlen]
  have hroom := push_room (k := (ptrs.length + 1) * 8) hp.aligned (by omega)
  have hle := le_room ((ptrs.length + 1) * 8)
  have hsize := hp.size
  refine ⟨push_mod _ _, hbase, ?_, ?_, hp.apart, ?_⟩
  · rw [← hflat]
    exact hs.at
  · exact hp.strings_of hs (by rw [hflat, hlen]; omega) (by rw [hlen]; omega)
  · rw [hlen, Nat.mul_comm 8]
    omega

/-- The bottom node for the guard page exists: it is that of the page above or below. -/
theorem Image.guard_node (hI : Image L id G0 h0 pt n G h) (hmap : Mapped (G.leaf id) 0 g)
    (hup : (G.leaf id (g + 1)).v = true) : ∃ t, G.node id (botOf g) = some t := by
  by_cases hend : g % 512 = 511
  · obtain ⟨hv, _⟩ := hmap (g - 1) (Nat.zero_le _) (by omega)
    have hbot : botOf (g - 1) = botOf g := by
      unfold botOf ix2 ix1
      rw [show (g - 1) / 512 = g / 512 by omega, show (g - 1) / 262144 = g / 262144 by omega]
    rw [← hbot]
    exact (hI.holds.toShape.bot_of_leaf hv).2
  · have hbot : botOf (g + 1) = botOf g := by
      unfold botOf ix2 ix1
      rw [show (g + 1) / 512 = g / 512 by omega, show (g + 1) / 262144 = g / 262144 by omega]
    rw [← hbot]
    exact (hI.holds.toShape.bot_of_leaf hup).2

theorem uvmclear_spec {Q : Post Unit} (hI : Image L id G0 h0 pt n G h) (hva : g * pgSize < maxVa)
    (hnode : ∃ t, G.node id (botOf g) = some t) (hv : (G.leaf id g).v = false) (hgn : g < n)
    (hQ : ∀ G' h' b', Image L id G0 h0 pt n G' h' → (∀ v, v ≠ g → G'.leaf id v = G.leaf id v) →
      Q () h' b') : Spec L E Q (uvmclear pt (g * pgSize)) h b := by
  have hdiv : g * pgSize / pgSize = g := Nat.mul_div_cancel g (by decide)
  refine wp_seq (walk_find hI.holds hI.root hva ?_ ?_)
  · intro hn
    rw [hdiv] at hn
    obtain ⟨t, ht⟩ := hnode
    rw [hn] at ht
    cases ht
  · intro t ht
    rw [hdiv] at ht ⊢
    have hgm : g < maxVpn := by
      rw [← hdiv]
      exact vpn_lt hva
    refine wp_seq (readPte_spec (hI.holds.table id _ t ht) ?_)
    rw [Shape.entry hgm]
    have hold : ∀ q, (G.leaf id g).maps q = false := by
      intro q
      unfold Pte.maps
      rw [hv]
      rfl
    have hnew : ∀ q, Pte.maps { G.leaf id g with u := false } q = false := by
      intro q
      unfold Pte.maps
      rw [Bool.and_false]
      rfl
    have hb := Built.setLeaf hI.holds hgm ht hold hnew
    refine setPte_spec (hI.holds.table id _ t ht) ?_
    have hl : (G.setLeaf id g { G.leaf id g with u := false }).leaf id =
        update (G.leaf id) g { G.leaf id g with u := false } := Forest.setLeaf_leaf
    refine hQ _ _ b (hI.setLeaf hb hl hnew ?_) ?_
    · rw [hl]
      have hbound := hI.leaves.bound
      have h1 := tfVpn_eq
      have h2 := tpVpn_eq
      refine ⟨hbound, ?_, ?_, ?_, ?_⟩
      · intro v hvn
        by_cases hvg : v = g
        · rw [hvg, update_self]
          intro hx
          rw [show ({ G.leaf id g with u := false } : Pte).v = false from hv] at hx
          cases hx
        · rw [update_of_ne hvg]
          exact hI.leaves.user v hvn
      · intro v h1 h2 h3
        rw [update_of_ne (by omega)]
        exact hI.leaves.above v h1 h2 h3
      · rw [update_of_ne (by omega)]
        exact hI.leaves.trapframe
      · rw [update_of_ne (by omega)]
        exact hI.leaves.trampoline
    · intro v hvg
      rw [hl, update_of_ne hvg]

theorem Image.widen (hI : Image L id G0 h0 pt n G h) (hn : n < tfVpn) :
    Image L id G0 h0 pt (n + 1) G h :=
  { hI with leaves := hI.leaves.widen (Nat.le_succ n) hn }

/-! ## `kexec` -/

/-- What `kexec` relies on: the process's table, and that no other one is under construction. -/
structure UserProc (G : Forest) (i : Slot) (p : Proc) : Prop where
  root : G.node (.user i) .root = some p.pagetable
  leaves : UserLeaves (G.leaf (.user i)) (pageCount p.sz)
  new : G.node .next .root = none

/-- After `kexec`: the new table has the arguments on the stack page below the size, the old one of
    process `i` is gone, and the rest is as it was. -/
structure Started (L : Layout) (i : Slot) (strs : List (List UInt8)) (G : Forest) (h : PageHeap)
    (G' : Forest) (h' : PageHeap) (r : ExecResult) : Prop where
  holds : Holds L G' h'
  root : G'.node .next .root = some r.pagetable
  leaves : UserLeaves (G'.leaf .next) (pageCount r.sz)
  gone : G'.node (.user i) .root = none
  node : ∀ id, id ≠ .next → id ≠ .user i → G'.node id = G.node id
  leaf : ∀ id, id ≠ .next → id ≠ .user i → G'.leaf id = G.leaf id
  page : ∀ id, id ≠ .next → id ≠ .user i → G'.page h' id = G.page h id
  priv : G'.priv = G.priv
  argc : r.argc.toNat = strs.length
  argv : r.argv = r.sp
  stack : ∃ ptrs, ArgStack (G'.byteAt h' .next) r.sp.toNat (r.sz - pgSize) r.sz strs ptrs

section

variable {i : Slot} {p : Proc} {path : List UInt8}

/-- The old table goes when the new one is complete. -/
theorem Image.started {r : ExecResult} (hI : Image L .next G0 h0 pt n G h)
    (hf : Freed L (.user i) G h G' h') (hr : r.pagetable = pt) (hn : pageCount r.sz = n)
    (hargc : r.argc.toNat = strs.length) (hargv : r.argv = r.sp)
    (hstack : ∃ ptrs, ArgStack (G.byteAt h .next) r.sp.toNat (r.sz - pgSize) r.sz strs ptrs) :
    Started L i strs G0 h0 G' h' r where
  holds := hf.holds
  root := by
    have hne : Tid.next ≠ .user i := nofun
    rw [hf.forest, Forest.dropTable_node_other hne, hr]
    exact hI.root
  leaves := by
    have hne : Tid.next ≠ .user i := nofun
    rw [hf.forest, Forest.dropTable_leaf_other hne, hn]
    exact hI.leaves
  gone := by rw [hf.forest, Forest.dropTable_node_same]
  node id h1 h2 := by rw [hf.forest, Forest.dropTable_node_other h2, hI.node id h1]
  leaf id h1 h2 := by rw [hf.forest, Forest.dropTable_leaf_other h2, hI.leaf id h1]
  page id h1 h2 := by rw [hf.page id h2, hI.page h1]
  priv := by
    rw [hf.forest]
    exact hI.priv
  argc := hargc
  argv := hargv
  stack := by
    have hbytes : G'.byteAt h' .next = G.byteAt h .next := by
      funext a
      unfold Forest.byteAt
      rw [hf.page .next nofun]
    rw [hbytes]
    exact hstack

theorem execStack_spec {Q : Post (Option ExecResult)} {entry : ℕ}
    (hI : Image L .next G0 h0 pt (pageCount sz) G h)
    (hmap : Mapped (G.leaf .next) 0 (pageCount sz)) (hp : UserProc G0 i p)
    (hargs : ArgPages h0 argv)
    (hlen : argv.length < maxArg) (hbad : ∀ b', Q none h0 b')
    (hok : ∀ G' h' b' r, Started L i (argv.map (argStr h0)) G0 h0 G' h' r → Q (some r) h' b') :
    Spec L E Q (execStack L p path argv entry pt sz) h b := by
  have hle := hI.mapped_le hmap
  have h1 := tfVpn_eq
  generalize hg : pageCount sz = g at hI hmap hle
  have hI1 : Image L .next G0 h0 pt (pageCount ((g + 1) * pgSize)) G h := by
    rw [pageCount_mul]
    exact hI.widen (by omega)
  have hbad' : ∀ {n' G' h' b'}, Image L .next G0 h0 pt n' G' h' → ∀ {sz'}, n' = pageCount sz' →
      Spec L E Q (execBad L pt sz') h' b' := by
    intro n' G' h' b' hI' sz' hn'
    subst hn'
    exact execBad_spec hI' hbad
  unfold execStack
  dsimp only
  rw [pgRoundUp_eq, hg, ← Nat.succ_mul, show (g.succ * pgSize + userStack * pgSize) =
    (g + 2) * pgSize by
    rw [← Nat.add_mul]; rfl]
  refine wp_seq (uvmalloc_spec hI1.holds hI1.root hI1.leaves (.inl ?_) ?_ ?_ ?_)
  · rw [pageCount_mul]
    omega
  · intro hlt
    unfold pgSize at hlt
    omega
  · intro _ G1 h1' b1 hl he
    have hI2 := hI1.extend he hl
    rw [pageCount_mul] at hI2
    rw [pageCount_mul, pageCount_mul] at he
    obtain ⟨q, hq, _⟩ := he.fresh (g + 1) (Nat.le_refl _) (Nat.lt_succ_self _)
    rw [if_neg (by unfold pgSize; omega)]
    refine wp_seq (uvmclear_spec hI2 ?_ ?_ ?_ (by omega) ?_)
    · unfold maxVa pgSize
      omega
    · refine hI2.guard_node (fun v h1 h2 => ?_) (by rw [hq])
      rw [he.out v (.inl (by omega))]
      exact hmap v h1 h2
    · rw [he.out g (.inl (by omega))]
      exact hI.leaves.above g (Nat.le_refl g) (by omega) (by have := tpVpn_eq; omega)
    intro G2 h2' b2 hI3 hsame2
    have hleaf : G2.leaf .next (g + 1) =
        { ({ w := true } : Flags) with r := true, u := true, v := true, ppn := q } := by
      rw [hsame2 (g + 1) (by omega), hq]
    have hm : (G2.leaf .next (g + 1)).maps q = true := by
      rw [hleaf]
      exact maps_iff.mpr ⟨rfl, rfl, rfl⟩
    have hw : (G2.leaf .next (g + 1)).w = true := by rw [hleaf]
    have hbase : (g + 2) * pgSize - userStack * pgSize = (g + 1) * pgSize := by
      unfold userStack pgSize
      omega
    rw [hbase]
    have htop : (g + 2) * pgSize % 16 = 0 := by
      unfold pgSize
      omega
    refine wp_seq
      (pushArgs_spec hI3 hm hw (Nat.succ_pos g) hargs (.nil _ htop) (Nat.le_refl _) ?_ ?_)
    · intro h3 b3 hI4
      exact hbad' hI4 (pageCount_mul _).symm
    · intro h3 b3 sp ptrs hI4 hpush hsp
      rw [nil_append] at hpush
      have hcount := hpush.strings.length_eq
      rw [length_map] at hcount
      refine setUstack_spec (by omega) ?_
      rw [length_append, length_singleton]
      split
      · exact hbad' hI4 (pageCount_mul _).symm
      rename_i hge
      have hge := Nat.le_of_not_lt hge
      have hbpos : 0 < (g + 1) * pgSize := Nat.mul_pos (Nat.succ_pos g) (by decide)
      have hroom := push_room (k := (ptrs.length + 1) * 8) hpush.aligned (by omega)
      have hlr := le_room ((ptrs.length + 1) * 8)
      refine wp_seq (hI4.stack_copy hm hw ?_ hge ?_ ?_)
      · intro hx
        have := congrArg List.length hx
        rw [length_flatMap_le64, length_append] at this
        simp at this
      · rw [length_flatMap_le64, length_append, length_singleton]
        change _ ≤ (g + 2) * pgSize
        change sp ≤ (g + 2) * pgSize at hsp
        omega
      · intro h4 hI5 hst
        have hstack := hpush.array hge hbpos hst
        rw [if_pos rfl]
        have hroot : G2.node (.user i) .root = some p.pagetable := by
          rw [hI5.node (.user i) nofun]
          exact hp.root
        refine wp_seq (procFreepagetable_spec hI5.holds hroot ?_ ?_)
        · rw [hI5.leaf (.user i) nofun]
          exact hp.leaves
        intro G5 h5 b5 hf
        have hsp : sp ≤ (g + 2) * 4096 := hsp
        have hsplt : push sp ((ptrs.length + 1) * 8) < 2 ^ 64 := by omega
        have hclt : ptrs.length < 2 ^ 64 := by omega
        refine hok G5 h5 b5 _ (hI5.started hf rfl (pageCount_mul _) ?_ rfl ⟨ptrs, ?_⟩)
        · rw [BitVec.toNat_ofNat, Nat.mod_eq_of_lt hclt, length_map, hcount]
        · rw [BitVec.toNat_ofNat, Nat.mod_eq_of_lt hsplt,
            show (g + 2) * pgSize - pgSize = (g + 1) * pgSize by
            unfold pgSize
            omega]
          exact hstack
  · intro G1 h1' b1 hu
    rw [if_pos rfl]
    exact hbad' (hI1.undo hu) rfl

/-- The calls of `kexec`, whichever way it ends. -/
def FsCall.ofExec : Option Inode → List FsCall
  | none => [.beginOp, .namei false, .endOp]
  | some _ => [.beginOp, .namei true, .ilock, .iunlockput, .endOp]

theorem kexec_spec {Q : Post (Option ExecResult × List FsCall)} {ip : Option Inode}
    (hH : Holds L G h) (hp : UserProc G i p) (hargs : ArgPages h argv) (hlen : argv.length < maxArg)
    (hbad : ∀ b', Q (none, FsCall.ofExec ip) h b')
    (hok : ∀ G' h' b' r, Started L i (argv.map (argStr h)) G h G' h' r →
      Q (some r, FsCall.ofExec ip) h' b') : Spec L E Q (kexec L p path ip argv) h b := by
  unfold kexec
  cases ip with
  | none => exact hbad b
  | some ip =>
    dsimp only
    split
    · exact hbad b
    split
    · exact hbad b
    refine wp_seq (procPagetable_spec hH hp.new hbad ?_)
    intro pt G1 h1 b1 hI
    have hI : Image L .next _ _ pt (pageCount 0) G1 h1 := hI
    refine wp_seq (loadSegments_spec hI (fun v _ hv => absurd hv (Nat.not_lt_zero _)) ?_)
    intro G2 h2 b2 sz r hI2 hmap
    cases r with
    | false => exact wp_seq (execBad_spec hI2 hbad)
    | true =>
      generalize field (ip.read 0 64) 24 8 = entry
      have hstack := @execStack_spec L E G2 G h2 h pt sz b2 argv i p path
        (fun r h' b' => Q (r, FsCall.ofExec (some ip)) h' b') entry hI2 hmap hp hargs hlen hbad
      -- the program is a variable here, or the elaborator would evaluate it
      dsimp only
      generalize execStack L p path argv entry pt sz = m at hstack ⊢
      refine wp_seq (wp_mono ?_ (hstack hok))
      intro r h' b' hr
      cases r with
      | none | some => exact hr

end

/-- `kexec` up to the program header number `m`: the new table, the size reached, and whether the
    headers were accepted. -/
def loadHeaders (L : Layout) (trapframe : ℕ) (ip : Inode) (m off : ℕ) : K (Option (ℕ × ℕ × Bool)) :=
  do
  match ← procPagetable L trapframe with
  | none => .ret none
  | some pagetable => do
    let (sz, ok) ← loadSegments L pagetable ip m off 0
    .ret (some (pagetable, sz, ok))

theorem loadHeaders_spec {Q : Post (Option (ℕ × ℕ × Bool))} {tf off : ℕ} {ip : Inode}
    (hH : Holds L G h) (hnew : G.node .next .root = none) (hnone : ∀ b', Q none h b')
    (hsome : ∀ G' h' b' pt sz ok, Image L .next G h pt (pageCount sz) G' h' →
      Mapped (G'.leaf .next) 0 (pageCount sz) → Q (some (pt, sz, ok)) h' b') :
    Spec L E Q (loadHeaders L tf ip m off) h b := by
  refine wp_seq (procPagetable_spec hH hnew hnone fun pt G1 h1 b1 hI => ?_)
  have hI : Image L .next G h pt (pageCount 0) G1 h1 := hI
  refine wp_seq (loadSegments_spec hI (fun v _ hv => absurd hv (Nat.not_lt_zero _)) ?_)
  exact fun G2 h2 b2 sz ok hI2 hmap => hsome G2 h2 b2 pt sz ok hI2 hmap

end Xv6.Vm
