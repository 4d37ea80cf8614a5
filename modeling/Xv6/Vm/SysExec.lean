/-
  `sys_exec`: fetching the arguments, `kexec`, and giving the pages of `argv[]` back.

  `fetchaddr` reads the pointers through `copyin`, which maps pages of the process that were grown
  lazily. Those pages apart, a failed call leaves everything as it was.
-/
import Xv6.Vm.StackSpec

namespace Xv6.Vm

open Lib Process Function List Heap

variable {L : Layout} {E : Panic → Prop} {G G' G'' : Forest} {h h' h'' : PageHeap} {id : Tid}
  {a q v n va pt len b b' : ℕ} {S : Set ℕ} {c : Cur} {i : Slot} {p : Proc} {argv : List ℕ}

/-! ## Reading user memory -/

/-- Pages of `S` that were not mapped may be mapped now; nothing else has changed. -/
structure Touched (L : Layout) (c : Cur) (id : Tid) (S : Set ℕ) (G : Forest) (h : PageHeap)
    (G' : Forest) (h' : PageHeap) : Prop where
  holds : Holds L G' h'
  frame : Frame {id} G h G' h'
  grows : Grows G h G' h'
  page : G'.page h' id = G.page h id
  leaf : ∀ v, G'.leaf id v = G.leaf id v ∨
    v ∈ S ∧ v * pgSize < c.sz ∧ (G.leaf id v).v = false ∧ (G'.leaf id v).u = true
  same : (∀ v ∈ S, v * pgSize < c.sz → (G.leaf id v).v = true) → G' = G ∧ h' = h

theorem Touched.refl (hH : Holds L G h) (c : Cur) (id : Tid) (S : Set ℕ) :
    Touched L c id S G h G h :=
  ⟨hH, .refl _ G h, .refl G h, rfl, fun _ => .inl rfl, fun _ => ⟨rfl, rfl⟩⟩

theorem Touched.trans (h1 : Touched L c id S G h G' h') (h2 : Touched L c id S G' h' G'' h'') :
    Touched L c id S G h G'' h'' where
  holds := h2.holds
  frame := h1.frame.trans h2.frame
  grows := h1.grows.trans h2.grows
  page := h2.page.trans h1.page
  leaf v := by
    rcases h2.leaf v with heq | ⟨hS, hsz, hv, hu⟩
    · rw [heq]
      exact h1.leaf v
    · rcases h1.leaf v with heq | ⟨_, _, hv', _⟩
      · exact .inr ⟨hS, hsz, heq ▸ hv, hu⟩
      · exact .inr ⟨hS, hsz, hv', hu⟩
  same hS := by
    obtain ⟨rfl, rfl⟩ := h1.same hS
    exact h2.same hS

/-- `walkaddr`, and `vmfault` where it finds nothing. -/
theorem userPage_touch {Q : Post (Option ℕ)} (hH : Holds L G h)
    (hroot : G.node id .root = some c.pagetable) (hsz : c.sz ≤ maxVa) (hS : va / pgSize ∈ S)
    (hnone : ∀ G' h' b', Touched L c id S G h G' h' → Q none h' b')
    (hsome : ∀ G' h' b' q, Touched L c id S G h G' h' → (G'.leaf id (va / pgSize)).maps q = true →
      Q (some q) h' b') : Spec L E Q (userPage L c c.pagetable va) h b := by
  have hlow : va < c.sz → va / pgSize * pgSize < c.sz :=
    Nat.lt_of_le_of_lt (Nat.div_mul_le_self va pgSize)
  refine wp_seq (walkaddr_spec hH hroot ?_ ?_)
  · intro _
    refine vmfault_spec hH hroot hsz (fun _ => hnone G h b (.refl hH c id S)) ?_ ?_
    · intro G' h' b' hlt hv hi _
      refine hnone G' h' b' ⟨hi.holds, hi.frame, hi.grows, by rw [hi.page],
        fun w => .inl (by rw [hi.leaf]), ?_⟩
      intro hall
      rw [hall _ hS (hlow hlt)] at hv
      cases hv
    · intro G' h' b' mem hlt hv hf hl
      obtain ⟨mem', hleaf, _⟩ := hf.leaf
      refine hsome G' h' b' mem ⟨hf.holds, hf.frame, hf.grows, hf.page, ?_, ?_⟩ ?_
      · intro w
        by_cases hw : w = va / pgSize
        · exact .inr ⟨hw ▸ hS, hw ▸ hlow hlt, hw ▸ hv, by rw [hw, hl]⟩
        · rw [hleaf, update_of_ne hw]
          exact .inl rfl
      · intro hall
        rw [hall _ hS (hlow hlt)] at hv
        cases hv
      · rw [hl]
        exact maps_iff.mpr ⟨rfl, rfl, rfl⟩
  · intro q _ hq
    exact hsome G h b q (.refl hH c id S) hq

theorem copyinLoop_touch {Q : Post (Option (List UInt8))} {fuel : ℕ} (hH : Holds L G h)
    (hroot : G.node id .root = some c.pagetable) (hsz : c.sz ≤ maxVa)
    (hS : ∀ v ∈ pagesOf va len, v ∈ S)
    (hQ : ∀ r G' h' b', Touched L c id S G h G' h' → Q r h' b') :
    Spec L E Q (copyinLoop L c c.pagetable fuel va len) h b := by
  induction fuel generalizing va len G h b Q with
  | zero => exact hQ _ G h b (.refl hH c id S)
  | succ fuel ih =>
    unfold copyinLoop
    split
    · exact hQ _ G h b (.refl hH c id S)
    rename_i hlen
    have hpos : 0 < len := by omega
    obtain ⟨hsplit, _⟩ := pagesOf_next va hpos
    have hrest : ∀ v ∈ pagesOf (pgRoundDown va + pgSize) (len - chunk va len), v ∈ S := by
      intro v hv
      by_cases hmore : chunk va len < len
      · refine hS v ?_
        rw [hsplit, ← next_va hmore]
        exact Finset.mem_insert_of_mem hv
      · rw [Nat.sub_eq_zero_of_le (Nat.le_of_not_lt hmore)] at hv
        simp [pagesOf] at hv
    have hfirst : pgRoundDown va / pgSize ∈ S := by
      rw [pgRoundDown_div]
      exact hS _ (by rw [hsplit]; exact Finset.mem_insert_self _ _)
    refine wp_seq (userPage_touch hH hroot hsz hfirst ?_ ?_)
    · intro G' h' b' ht
      exact hQ _ G' h' b' ht
    · intro G' h' b' q ht hm
      refine wp_seq (readBytes_spec (ht.holds.cell_leaf hm) ?_)
      refine wp_seq (ih ht.holds ((ht.frame.root id).trans hroot) hrest ?_)
      intro r G'' h'' b'' ht'
      cases r with
      | none | some => exact hQ _ G'' h'' b'' (ht.trans ht')

/-- `copyinstr` only reads. -/
theorem copyinstrLoop_spec {Q : Post (Option (List UInt8))} {fuel m : ℕ} (hH : Holds L G h)
    (hroot : G.node id .root = some pt) (hQ : ∀ r, Q r h b) :
    Spec L E Q (copyinstrLoop pt fuel va m) h b := by
  induction fuel generalizing va m Q with
  | zero => exact hQ none
  | succ fuel ih =>
    unfold copyinstrLoop
    split
    · exact hQ none
    refine wp_seq (walkaddr_spec hH hroot (fun _ => hQ none) ?_)
    intro q _ hm
    refine wp_seq (readBytes_spec (hH.cell_leaf hm) ?_)
    dsimp only
    split
    · exact hQ _
    · refine wp_seq (ih ?_)
      intro r
      cases r with
      | none => exact hQ none
      | some l => exact hQ _

/-! ## The pages of `argv[]` -/

/-- What nobody holds now was nobody's before. -/
theorem Grows.none_before (hk : Grows G h G' h') (hH : Holds L G' h') (hq : h' q = none) :
    h q = none := by
  by_contra h0
  by_cases hN : G.Node q
  · exact hH.not_kern_of_none hq (.inl (hk.nodes q hN))
  · exact h0 ((hk.cell q h0 hN).symm.trans hq)

/-- `sys_exec` has fetched `argv` and touched pages of `S`. -/
structure Fetched (L : Layout) (i : Slot) (p : Proc) (S : Set ℕ) (G : Forest) (h : PageHeap)
    (argv : List ℕ)
    (G' : Forest) (h' : PageHeap) : Prop where
  base : Holds L G h
  holds : Holds L G' h'
  proc : UserProc G' i p
  node : ∀ id, id ≠ .user i → G'.node id = G.node id
  leaf : ∀ id, id ≠ .user i → G'.leaf id = G.leaf id
  grows : Grows G h G' h'
  page : ∀ id, G'.page h' id = G.page h id
  mapped : ∀ v, v ∉ S ∨ p.sz ≤ v * pgSize ∨ (G.leaf (.user i) v).v = true →
    G'.leaf (.user i) v = G.leaf (.user i) v
  same : (∀ v ∈ S, v * pgSize < p.sz → (G.leaf (.user i) v).v = true) → G'.node = G.node ∧
    G'.leaf = G.leaf
  priv : G'.priv = G.priv ∪ { a | a ∈ argv }
  fresh : ∀ a ∈ argv, h a = none
  bytes : ∀ a ∈ argv, ∃ f, h' a = some (1, .bytes f)
  nodup : argv.Nodup

namespace Fetched

theorem start (hH : Holds L G h) (hp : UserProc G i p) (S : Set ℕ) :
    Fetched L i p S G h [] G h where
  base := hH
  holds := hH
  proc := hp
  node _ _ := rfl
  leaf _ _ := rfl
  grows := .refl G h
  page _ := rfl
  mapped _ _ := rfl
  same _ := ⟨rfl, rfl⟩
  priv := by
    ext
    simp
  fresh _ ha := nomatch ha
  bytes _ ha := nomatch ha
  nodup := .nil

section

variable (hf : Fetched L i p S G h argv G' h')

include hf

theorem arg_priv (ha : a ∈ argv) : a ∈ G'.priv := by
  rw [hf.priv]
  exact .inr ha

theorem arg_ne (ha : a ∈ argv) (hq : h q ≠ none) : q ≠ a := by
  rintro rfl
  exact hq (hf.fresh q ha)

theorem argPages : ArgPages h' argv := by
  intro a ha
  obtain ⟨f, hfa⟩ := hf.bytes a ha
  exact ⟨1, f, hfa⟩

/-- A read. -/
theorem touch (ht : Touched L ⟨p.sz, p.pagetable⟩ (.user i) S G' h' G'' h'') :
    Fetched L i p S G h argv G'' h'' where
  base := hf.base
  holds := ht.holds
  proc := by
    refine ⟨(ht.frame.root _).trans hf.proc.root, hf.proc.leaves.touch fun v => ?_, ?_⟩
    · rcases ht.leaf v with heq | ⟨_, hlt, _, hu⟩
      · exact .inl heq
      · exact .inr ⟨hlt, hu⟩
    · rw [ht.frame.node .next nofun]
      exact hf.proc.new
  node id hid := (ht.frame.node id hid).trans (hf.node id hid)
  leaf id hid := (ht.frame.leaf id hid).trans (hf.leaf id hid)
  grows := hf.grows.trans ht.grows
  page id := by
    by_cases hid : id = .user i
    · rw [hid, ht.page, hf.page]
    · rw [ht.frame.page id hid, hf.page]
  mapped v hv := by
    have h1 := hf.mapped v hv
    rcases ht.leaf v with heq | ⟨hS, hlt, hv', _⟩
    · rw [heq, h1]
    · rcases hv with hv | hge | hv
      · exact absurd hS hv
      · exact absurd hlt (Nat.not_lt.mpr hge)
      · rw [h1, hv] at hv'
        cases hv'
  same hS := by
    obtain ⟨hn, hl⟩ := hf.same hS
    obtain ⟨rfl, _⟩ := ht.same (by rw [hl]; exact hS)
    exact ⟨hn, hl⟩
  priv := ht.frame.priv.trans hf.priv
  fresh := hf.fresh
  bytes a ha := by
    obtain ⟨f, hfa⟩ := hf.bytes a ha
    refine ⟨f, ?_⟩
    rw [ht.grows.cell a (by simp [hfa]) fun hN => hf.holds.apart a hN (hf.arg_priv ha), hfa]
  nodup := hf.nodup

/-- A page for the next argument. -/
theorem add (ha : a ∈ L.managed) (hn : h' a = none) (f : ℕ → UInt8) :
    Fetched L i p S G h (argv ++ [a]) (G'.addPriv a) (h'.set a (some (1, .bytes f))) where
  base := hf.base
  holds := hf.holds.addPriv ha hn
  proc := ⟨hf.proc.root, hf.proc.leaves, hf.proc.new⟩
  node := hf.node
  leaf := hf.leaf
  grows := hf.grows.trans (.addPriv hn _)
  page id := by rw [page_addPriv hf.holds hn, hf.page]
  mapped := hf.mapped
  same := hf.same
  priv := by
    ext q
    rw [Forest.mem_addPriv, hf.priv]
    simp only [Set.mem_union, Set.mem_ofPred_eq, mem_append, mem_singleton]
    tauto
  fresh q hq := by
    rcases List.mem_append.mp hq with hq | hq
    · exact hf.fresh q hq
    · rw [List.mem_singleton.mp hq]
      exact hf.grows.none_before hf.holds hn
  bytes q hq := by
    by_cases hqa : q = a
    · rw [hqa, set_same]
      exact ⟨f, rfl⟩
    · rw [set_ne _ _ hqa]
      rcases List.mem_append.mp hq with hq | hq
      · exact hf.bytes q hq
      · exact absurd (List.mem_singleton.mp hq) hqa
  nodup := by
    refine hf.nodup.append (nodup_singleton a) ?_
    intro q hq hqa
    obtain rfl := List.mem_singleton.mp hqa
    obtain ⟨f', hf'⟩ := hf.bytes q hq
    rw [hn] at hf'
    cases hf'

/-- The string arrives in its page. -/
theorem write (ha : a ∈ argv) (f : ℕ → UInt8) :
    Fetched L i p S G h argv G' (h'.set a (some (1, .bytes f))) :=
  { hf with
    holds := hf.holds.setPriv (hf.arg_priv ha)
    grows := by
      refine ⟨⟨fun q hq hN => ?_, hf.grows.fresh⟩, hf.grows.nodes, fun q hq => ?_⟩
      · rw [set_ne _ _ (hf.arg_ne ha hq), hf.grows.cell q hq hN]
      · by_cases hqa : q = a
        · rw [hqa, set_same]
          exact .inr (.inr ⟨_, rfl⟩)
        · rw [set_ne _ _ hqa]
          exact hf.grows.new q hq
    page := fun id => by
      rw [← hf.page id]
      exact congrFun (page_set fun id v => hf.holds.not_mapped (.inl (.inr (hf.arg_priv ha))) id v)
        id
    bytes := fun q hq => by
      by_cases hqa : q = a
      · rw [hqa, set_same]
        exact ⟨f, rfl⟩
      · rw [set_ne _ _ hqa]
        exact hf.bytes q hq }

end

/-- The page of an argument is given back. -/
theorem drop (hf : Fetched L i p S G h (a :: argv) G' h') :
    Fetched L i p S G h argv (G'.dropPriv a) (h'.set a none) where
  base := hf.base
  holds := hf.holds.dropPriv (hf.arg_priv mem_cons_self)
  proc := ⟨hf.proc.root, hf.proc.leaves, hf.proc.new⟩
  node := hf.node
  leaf := hf.leaf
  grows := hf.grows.dropPriv (hf.fresh a mem_cons_self)
  page id := by rw [page_dropPriv hf.holds (hf.arg_priv mem_cons_self), hf.page]
  mapped := hf.mapped
  same := hf.same
  priv := by
    have ha : a ∉ G.priv := fun hx =>
      hf.base.not_kern_of_none (hf.fresh a mem_cons_self) (.inr hx)
    have hnot := (List.nodup_cons.mp hf.nodup).1
    ext q
    rw [Forest.mem_dropPriv, hf.priv]
    simp only [Set.mem_union, Set.mem_ofPred_eq, mem_cons]
    constructor
    · rintro ⟨hq | rfl | hq, hne⟩
      · exact .inl hq
      · exact absurd rfl hne
      · exact .inr hq
    · rintro (hq | hq)
      · refine ⟨.inl hq, ?_⟩
        rintro rfl
        exact ha hq
      · refine ⟨.inr (.inr hq), ?_⟩
        rintro rfl
        exact hnot hq
  fresh q hq := hf.fresh q (mem_cons_of_mem _ hq)
  bytes q hq := by
    have hnot := (List.nodup_cons.mp hf.nodup).1
    rw [set_ne]
    · exact hf.bytes q (mem_cons_of_mem _ hq)
    · rintro rfl
      exact hnot hq
  nodup := (List.nodup_cons.mp hf.nodup).2

theorem forest_eq (hf : Fetched L i p S G h [] G' h') 
    (hS : ∀ v ∈ S, v * pgSize < p.sz → (G.leaf (.user i) v).v = true) : G' = G ∧ h' = h := by
  obtain ⟨hn, hl⟩ := hf.same hS
  have hp : G'.priv = G.priv := by
    rw [hf.priv]
    ext
    simp
  have hG : G' = G := by
    cases G
    cases G'
    cases hn
    cases hl
    cases hp
    rfl
  subst hG
  exact ⟨rfl, hf.base.heap_eq hf.holds hf.grows.cell⟩

end Fetched

theorem freeArgs_spec {Q : Post Unit} (hf : Fetched L i p S G h argv G' h')
    (hQ : ∀ G'' h'' b', Fetched L i p S G h [] G'' h'' → Q () h'' b') :
    Spec L E Q (freeArgs L argv) h' b := by
  induction argv generalizing G' h' b with
  | nil => exact hQ G' h' b hf
  | cons a argv ih =>
    refine wp_seq (kfree_priv hf.holds (hf.arg_priv mem_cons_self) ?_)
    intro b' _
    exact ih hf.drop

/-- The pages are given back after a successful `kexec`, which keeps them. -/
theorem freeArgs_priv {Q : Post Unit} (hH : Holds L G h) (hpriv : ∀ a ∈ argv, a ∈ G.priv)
    (hnd : argv.Nodup) (hQ : ∀ G' h' b', Holds L G' h' → G'.node = G.node → G'.leaf = G.leaf →
      G'.page h' = G.page h → G'.priv = G.priv \ { a | a ∈ argv } → Q () h' b') :
    Spec L E Q (freeArgs L argv) h b := by
  induction argv generalizing G h b with
  | nil =>
    refine hQ G h b hH rfl rfl rfl ?_
    ext
    simp
  | cons a argv ih =>
    have ha := hpriv a mem_cons_self
    refine wp_seq (kfree_priv hH ha ?_)
    intro b' _
    obtain ⟨hnot, hnd⟩ := List.nodup_cons.mp hnd
    refine ih (hH.dropPriv ha) (fun q hq => ⟨hpriv q (mem_cons_of_mem _ hq), ?_⟩) hnd ?_
    · rintro rfl
      exact hnot hq
    · intro G' h' b'' hH' hn hl hp hpr
      refine hQ G' h' b'' hH' hn hl ?_ ?_
      · rw [hp, page_dropPriv hH ha]
      · rw [hpr]
        ext q
        simp only [Set.mem_sdiff, Forest.mem_dropPriv, Set.mem_ofPred_eq, mem_cons, not_or]
        tauto

/-- The pages of the pointers that `sys_exec` may read. -/
def argvPages (uargv : ℕ) : Set ℕ := { v | ∃ i < maxArg, v ∈ pagesOf ((uargv + 8 * i) % 2 ^ 64) 8 }

theorem fetchArgv_spec {Q : Post (List ℕ × Bool)} {uargv k j : ℕ} (hk : j + k = maxArg)
    (hj : argv.length = j) (hf : Fetched L i p (argvPages uargv) G h argv G' h')
    (hQ : ∀ G'' h'' b' argv' r, Fetched L i p (argvPages uargv) G h argv' G'' h'' →
      (r = true → argv'.length < maxArg) → Q (argv', r) h'' b') :
    Spec L E Q (fetchArgv L p uargv k j argv) h' b := by
  induction k generalizing j argv G' h' b with
  | zero => exact hQ G' h' b argv false hf nofun
  | succ k ih =>
    have hfetch : Spec L E (fun _ h1 _ => ∃ G1, Fetched L i p (argvPages uargv) G h argv G1 h1)
        (fetchaddr L p ((uargv + 8 * j) % 2 ^ 64)) h' b := by
      unfold fetchaddr
      split
      · exact ⟨G', hf⟩
      · refine wp_seq (copyinLoop_touch (c := ⟨p.sz, p.pagetable⟩) (S := argvPages uargv) hf.holds
          hf.proc.root hf.proc.leaves.size_le (fun v hv => ⟨j, by omega, hv⟩) ?_)
        intro r G1 h1 b1 ht
        cases r with
        | none | some => exact ⟨G1, hf.touch ht⟩
    refine wp_seq (wp_mono ?_ hfetch)
    rintro r h1 b1 ⟨G1, hf1⟩
    cases r with
    | none => exact hQ G1 h1 b1 argv false hf1 nofun
    | some uarg =>
      dsimp only
      split
      · exact hQ G1 h1 b1 argv true hf1 fun _ => by omega
      refine wp_seq (kalloc_spec (fun _ => hQ G1 h1 b1 argv false hf1 nofun) ?_)
      intro arg harg hfree _
      have hf2 := hf1.add harg hfree fun _ => 5
      have hmem : arg ∈ argv ++ [arg] := mem_append_right _ mem_cons_self
      refine wp_seq (copyinstrLoop_spec hf2.holds hf2.proc.root ?_)
      intro r
      cases r with
      | none => exact hQ _ _ _ _ false hf2 nofun
      | some str =>
        obtain ⟨f, hcell⟩ := hf2.bytes arg hmem
        refine wp_seq (memmove_spec hcell ?_)
        refine ih (by omega) ?_ (hf2.write hmem _)
        rw [length_append, length_singleton, hj]

/-! ## The file system's side -/

/-- What the calls of `kexec` count: the process's share of `log.outstanding`, and the references
    and the inode locks that it holds. -/
structure FsHeld where
  outstanding : ℕ
  refs : ℕ
  locks : ℕ
  deriving DecidableEq, Repr

def FsHeld.call (f : FsHeld) : FsCall → FsHeld
  | .beginOp => { f with outstanding := f.outstanding + 1 }
  | .namei found => { f with refs := f.refs + found.toNat }
  | .ilock => { f with locks := f.locks + 1 }
  | .iunlockput => { f with locks := f.locks - 1, refs := f.refs - 1 }
  | .endOp => { f with outstanding := f.outstanding - 1 }

/-- The calls leave nothing behind. -/
def FsCall.Balanced (calls : List FsCall) : Prop := ∀ f, calls.foldl FsHeld.call f = f

theorem FsCall.ofExec_balanced (ip : Option Inode) : Balanced (ofExec ip) := by
  intro f
  cases ip <;> rfl

/-! ## `sys_exec` -/

/-- The call as a whole, from before the arguments were fetched to after their pages are gone. -/
theorem Fetched.started {strs : List (List UInt8)} {r : ExecResult} {G₀ : Forest} {h₀ : PageHeap}
    (hf : Fetched L i p S G₀ h₀ argv G h) (hs : Started L i strs G h G' h' r)
    (hH : Holds L G'' h'') (hn : G''.node = G'.node) (hl : G''.leaf = G'.leaf)
    (hp : G''.page h'' = G'.page h') (hpriv : G''.priv = G'.priv \ { a | a ∈ argv }) :
    Started L i strs G₀ h₀ G'' h'' r where
  holds := hH
  root := by
    rw [hn]
    exact hs.root
  leaves := by
    rw [hl]
    exact hs.leaves
  gone := by
    rw [hn]
    exact hs.gone
  node id h1 h2 := by rw [hn, hs.node id h1 h2, hf.node id h2]
  leaf id h1 h2 := by rw [hl, hs.leaf id h1 h2, hf.leaf id h2]
  page id h1 h2 := by rw [hp, hs.page id h1 h2, hf.page id]
  priv := by
    rw [hpriv, hs.priv, hf.priv]
    ext q
    simp only [Set.mem_sdiff, Set.mem_union, Set.mem_ofPred_eq]
    have hnew : q ∈ argv → q ∉ G₀.priv := fun hq hx =>
      hf.base.not_kern_of_none (hf.fresh q hq) (.inr hx)
    tauto
  argc := hs.argc
  argv := hs.argv
  stack := by
    have hbytes : G''.byteAt h'' .next = G'.byteAt h' .next := by
      funext x
      unfold Forest.byteAt
      rw [hp]
    rw [hbytes]
    exact hs.stack

theorem sysExec_spec {Q : Post (Option ExecResult × List FsCall)} {upath uargv : ℕ}
    {namei : List UInt8 → Option Inode} (hH : Holds L G h) (hp : UserProc G i p)
    (hbad : ∀ G' h' b' calls, Fetched L i p (argvPages uargv) G h [] G' h' →
      FsCall.Balanced calls → Q (none, calls) h' b')
    (hok : ∀ G' h' b' r calls strs, Started L i strs G h G' h' r → FsCall.Balanced calls →
      Q (some r, calls) h' b') :
    Spec L E Q (sysExec L p upath uargv namei) h b := by
  unfold sysExec
  refine wp_seq (copyinstrLoop_spec hH hp.root ?_)
  intro r
  cases r with
  | none => exact hbad G h b [] (.start hH hp _) fun _ => rfl
  | some path =>
    refine wp_seq (fetchArgv_spec (Nat.zero_add _) rfl (.start hH hp _) ?_)
    intro G1 h1 b1 argv ok hf hlen
    cases ok with
    | false =>
      refine wp_seq (freeArgs_spec hf ?_)
      intro G2 h2 b2 hf2
      exact hbad G2 h2 b2 [] hf2 fun _ => rfl
    | true =>
      refine wp_seq (kexec_spec hf.holds hf.proc hf.argPages (hlen rfl) ?_ ?_)
      · intro b2
        refine wp_seq (freeArgs_spec hf ?_)
        intro G3 h3 b3 hf3
        exact hbad G3 h3 b3 _ hf3 (FsCall.ofExec_balanced _)
      · intro G2 h2 b2 r hs
        refine wp_seq (freeArgs_priv hs.holds ?_ hf.nodup ?_)
        · intro a ha
          rw [hs.priv]
          exact hf.arg_priv ha
        · intro G3 h3 b3 hH3 hn hl hpg hpriv
          exact hok G3 h3 b3 r _ _ (hf.started hs hH3 hn hl hpg hpriv) (FsCall.ofExec_balanced _)

end Xv6.Vm
