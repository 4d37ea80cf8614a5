/-
  A directory is a map from names to inode numbers.

  `Dirs` follows a directory through calls of `dirlink` and the writes with which `sys_unlink`
  clears an entry, with the map that they amount to. Names count up to their first `dirSiz` bytes
  (`nameOf`). The entries of the directory are that map (`Binds`), so `dirlookup` reads it,
  `dirlink` adds to it, and `isdirempty` tells whether it has more than `.` and `..`.
-/
import Xv6.Fs.System

namespace Xv6.Fs

open Lib Act Function Node

variable {sb : Super} {L : Multiset Ref} {s : Store} {dp : Ptr} {d k i : ℕ} {n : Node} {name : Name}
  {M : Name → Option ℕ} {E : Stop → Prop}

/-- The entries in use bind names to inode numbers as `M` does. -/
structure Binds (n : Node) (M : Name → Option ℕ) : Prop where
  named : Named n
  mem : ∀ x i, M x = some i ↔ ∃ k, n.Used k ∧ nameOf (n.entry k).name = x ∧ (n.entry k).inum = i

namespace Binds

theorem of_some (h : Binds n M) (hl : n.lookup name = some k) :
    M (nameOf name.byte) = some (n.entry k).inum := by
  obtain ⟨hu, hn⟩ := lookup_some hl
  exact (h.mem _ _).mpr ⟨k, hu, hn.symm, rfl⟩

theorem none_iff (h : Binds n M) : M (nameOf name.byte) = none ↔ n.lookup name = none := by
  cases hl : n.lookup name with
  | some k =>
    rw [h.of_some hl]
    exact ⟨nofun, nofun⟩
  | none =>
    refine ⟨fun _ => rfl, fun _ => ?_⟩
    cases hM : M (nameOf name.byte) with
    | none => rfl
    | some i =>
      obtain ⟨k, hu, hn, _⟩ := (h.mem _ _).mp hM
      exact absurd hn.symm (lookup_none hl hu)

theorem setEntry (h : Binds n M) (hl : n.lookup name = none) (hi : i ≠ 0) (hi' : i < 2 ^ 16) :
    Binds (n.setEntry n.slot name i) (update M (nameOf name.byte) (some i)) where
  named := h.named.setEntry hl hi hi'
  mem := by
    have hused : ∀ {k}, (n.setEntry n.slot name i).Used k ↔ n.Used k ∨ k = n.slot :=
      used_setEntry h.named.size hi hi'
    have hold : ∀ {k}, n.Used k → (n.setEntry n.slot name i).entry k = n.entry k := fun hk =>
      entry_setEntry_ne hk.ne_slot name i
    intro x j
    by_cases hx : x = nameOf name.byte
    · rw [hx, update_self]
      constructor
      · rintro ⟨⟩
        exact ⟨n.slot, hused.mpr (.inr rfl), nameOf_setEntry .., inum_setEntry _ _ _ hi'⟩
      · rintro ⟨k, hk, hn, rfl⟩
        rcases hused.mp hk with hk | rfl
        · rw [hold hk] at hn
          exact absurd hn.symm (lookup_none hl hk)
        · rw [inum_setEntry _ _ _ hi']
    · rw [update_of_ne hx, h.mem]
      constructor
      · rintro ⟨k, hk, hn⟩
        exact ⟨k, hused.mpr (.inl hk), (hold hk).symm ▸ hn⟩
      · rintro ⟨k, hk, hn⟩
        rcases hused.mp hk with hk | rfl
        · exact ⟨k, hk, hold hk ▸ hn⟩
        · exact absurd (hn.1.symm.trans (nameOf_setEntry ..)) hx

theorem clearEntry (h : Binds n M) (hl : n.lookup name = some k) (h2 : 2 ≤ k) :
    Binds (n.clearEntry k) (update M (nameOf name.byte) none) where
  named := h.named.clearEntry (lookup_some hl).1 h2
  mem := by
    obtain ⟨hu, hname⟩ := lookup_some hl
    have hused : ∀ {j}, (n.clearEntry k).Used j ↔ n.Used j ∧ j ≠ k :=
      used_clearEntry h.named.size hu
    have hold : ∀ {j}, j ≠ k → (n.clearEntry k).entry j = n.entry j := entry_clearEntry_ne
    intro x j
    by_cases hx : x = nameOf name.byte
    · rw [hx, update_self]
      refine ⟨nofun, ?_⟩
      rintro ⟨l, hl, hn, _⟩
      obtain ⟨hl, hlk⟩ := hused.mp hl
      rw [hold hlk] at hn
      exact absurd (h.named.distinct l k hl hu (hn.trans hname)) hlk
    · rw [update_of_ne hx, h.mem]
      constructor
      · rintro ⟨l, hl, hn⟩
        have hlk : l ≠ k := by
          rintro rfl
          exact hx (hn.1.symm.trans hname.symm)
        exact ⟨l, hused.mpr ⟨hl, hlk⟩, (hold hlk).symm ▸ hn⟩
      · rintro ⟨l, hl, hn⟩
        obtain ⟨hl, hlk⟩ := hused.mp hl
        exact ⟨l, hl, hold hlk ▸ hn⟩

/-- Only `.` and `..` are left where no entry is in use from the third one on. -/
theorem empty_iff (h : Binds n M) : (∀ j, 2 ≤ j → ¬n.Used j) ↔ ∀ x, x ≠ dot → x ≠ dotdot →
    M x = none := by
  constructor
  · intro hno x h0 h1
    cases hM : M x with
    | none => rfl
    | some i =>
      obtain ⟨k, hk, hn, _⟩ := (h.mem x i).mp hM
      by_cases h2 : 2 ≤ k
      · exact absurd hk (hno k h2)
      · have hk : k = 0 ∨ k = 1 := by omega
        rcases hk with rfl | rfl
        · exact absurd (hn.symm.trans h.named.dot.2) h0
        · exact absurd (hn.symm.trans h.named.dotdot.2) h1
  · intro hno j h2 hj
    have hM := (h.mem _ _).mpr ⟨j, hj, rfl, rfl⟩
    rw [hno] at hM
    · cases hM
    · exact fun hn => absurd (h.named.distinct j 0 hj h.named.dot.1 (hn.trans h.named.dot.2.symm))
        (by omega)
    · exact fun hn => absurd
        (h.named.distinct j 1 hj h.named.dotdot.1 (hn.trans h.named.dotdot.2.symm)) (by omega)

end Binds

/-- A directory of two entries. -/
def twoEntries (n : Node) (x : Name) : Option ℕ :=
  if x = dot then some (n.entry 0).inum else if x = dotdot then some (n.entry 1).inum else none

/-- Directory `d` in the course of calls, with the map that they amount to. Before the entry is
cleared, and between the calls, everything but the directory may change. -/
inductive Dirs (sb : Super) (d : ℕ) : Store → (Name → Option ℕ) → Prop
  | start {s : Store} {n : Node} (hn : s.node d = some n) (ht : n.type = .dir)
      (h2 : n.size = 2 * direntSize)
      (h0 : (n.entry 0).inum ≠ 0 ∧ nameOf (n.entry 0).name = dot)
      (h1 : (n.entry 1).inum ≠ 0 ∧ nameOf (n.entry 1).name = dotdot) : Dirs sb d s (twoEntries n)
  | dirlink {s s' : Store} {M : Name → Option ℕ} {dp : Ptr} {L : Multiset Ref} {name : Name}
      {inum : ℕ} {b : Bool}
      (h : Dirs sb d s M) (hh : Holds sb (⟨dp, d, true⟩ ::ₘ L) s) (h0 : 0 < inum)
      (h16 : inum < 2 ^ 16)
      (hm : dirlink sb dp name inum s = .ok (b, s')) :
      Dirs sb d s' (if b = true then update M (nameOf name.byte) (some inum) else M)
  | clear {s s₁ s₂ s' : Store} {M : Name → Option ℕ} {dp ip : Ptr} {L L₂ : Multiset Ref}
      {name : Name} {off : ℕ}
      (h : Dirs sb d s M) (hh : Holds sb (⟨dp, d, true⟩ ::ₘ L) s)
      (h0 : nameOf name.byte ≠ nameOf dot.byte) (h1 : nameOf name.byte ≠ nameOf dotdot.byte)
      (hl : dirlookup sb dp name s = .ok (some (ip, off), s₁))
      (hh₂ : Holds sb (⟨dp, d, true⟩ ::ₘ L₂) s₂) (hn : s₂.node d = s.node d)
      (hm : writei sb dp (fun _ => 0) (fun _ => none) off direntSize s₂ = .ok
        (some direntSize, s')) :
      Dirs sb d s' (update M (nameOf name.byte) none)
  | other {s s' : Store} {M : Name → Option ℕ} (h : Dirs sb d s M) (hn : s'.node d = s.node d) :
      Dirs sb d s' M

theorem binds_twoEntries (h2 : n.size = 2 * direntSize)
    (h0 : (n.entry 0).inum ≠ 0 ∧ nameOf (n.entry 0).name = dot)
    (h1 : (n.entry 1).inum ≠ 0 ∧ nameOf (n.entry 1).name = dotdot) : Binds n (twoEntries n) := by
  have hent : n.entries = 2 := by
    unfold Node.entries
    rw [h2]
    rfl
  have hused : ∀ {k}, n.Used k ↔ k = 0 ∨ k = 1 := by
    intro k
    unfold Node.Used
    rw [hent]
    constructor
    · rintro ⟨hk, _⟩
      omega
    · rintro (rfl | rfl)
      · exact ⟨by decide, h0.1⟩
      · exact ⟨by decide, h1.1⟩
  refine ⟨⟨by rw [h2]; decide, ⟨hused.mpr (.inl rfl), h0.2⟩, ⟨hused.mpr (.inr rfl), h1.2⟩, ?_⟩,
    fun x i => ?_⟩
  · intro k k' hk hk' he
    rcases hused.mp hk with rfl | rfl <;> rcases hused.mp hk' with rfl | rfl
    · rfl
    · exact absurd (h0.2.symm.trans (he.trans h1.2)) (by decide)
    · exact absurd (h0.2.symm.trans (he.symm.trans h1.2)) (by decide)
    · rfl
  · unfold twoEntries
    constructor
    · intro hx
      split at hx
      · next hd => exact ⟨0, hused.mpr (.inl rfl), h0.2.trans hd.symm, Option.some.inj hx⟩
      · split at hx
        · next hd => exact ⟨1, hused.mpr (.inr rfl), h1.2.trans hd.symm, Option.some.inj hx⟩
        · cases hx
    · rintro ⟨k, hk, rfl, rfl⟩
      rcases hused.mp hk with rfl | rfl
      · rw [if_pos h0.2]
      · rw [if_neg (by rw [h1.2]; decide), if_pos h1.2]

/-- `dirlink` on a directory that is a map. -/
theorem dirlink_binds (hb : Binds n M) (hh : Holds sb (⟨dp, d, true⟩ ::ₘ L) s)
    (hn : s.node d = some n)
    (ht : n.type = .dir) (hE : (∀ e, ∃ r ∈ ⟨dp, d, true⟩ ::ₘ L, r.ptr = e) → E .noInodes)
    (hblk : ∀ e, s.locks e = true → (∀ r ∈ ⟨dp, d, true⟩ ::ₘ L, r.ptr ≠ e) → E .blocked) :
    wp (dirlink sb dp name i) (fun b s' =>
      (b = true ↔ M (nameOf name.byte) = none ∧ s.Room sb dp (direntSize * n.slot) direntSize) ∧
      s'.node d = some (if b = true then n.setEntry n.slot name i else n)) E s := by
  refine dirlink_spec hh hn (fun h => absurd ht h) (fun h => absurd hb.named.size h) hE hblk
    (fun s' hwhy _ hn' => ?_) (fun k m s' hl _ _ hL _ hn' => ?_) fun s' hl hroom _ hn' => ?_
  · refine ⟨⟨nofun, fun h => ?_⟩, hn' ▸ hn⟩
    rcases hwhy with hl | hr
    · exact absurd (hb.none_iff.mp h.1) hl
    · exact absurd h.2 hr
  · refine ⟨⟨nofun, fun h => ?_⟩, ?_⟩
    · rw [hb.of_some hl] at h
      cases h.1
    · rw [hn', update_of_ne (hL _ (Multiset.mem_cons_self _ _))]
      exact hn
  · refine ⟨⟨fun _ => ⟨hb.none_iff.mpr hl, hroom⟩, fun _ => rfl⟩, ?_⟩
    rw [hn', update_self]
    rfl

theorem binds_of_dirs (h : Dirs sb d s M) : ∃ n, s.node d = some n ∧ n.type = .dir ∧ Binds n M := by
  induction h with
  | start hn ht h2 h0 h1 => exact ⟨_, hn, ht, binds_twoEntries h2 h0 h1⟩
  | @dirlink s s' M dp L name inum b h hh h0 h16 hm ih =>
    obtain ⟨n, hn, ht, hb⟩ := ih
    obtain ⟨hiff, hn'⟩ := wp_ok (dirlink_binds (E := fun _ => True) hb hh hn ht (fun _ => trivial)
      fun _ _ _ => trivial) hm
    cases b with
    | false => exact ⟨n, hn', ht, hb⟩
    | true => exact ⟨_, hn', ht, hb.setEntry (hb.none_iff.mp (hiff.mp rfl).1) (Nat.ne_of_gt h0) h16⟩
  | @clear s s₁ s₂ s' M dp ip L L₂ name off h hh h0 h1 hl hh₂ hn2 hm ih =>
    obtain ⟨n, hn, ht, hb⟩ := ih
    have hoff : ∃ k, n.lookup name = some k ∧ off = direntSize * k := by
      refine wp_ok (Q := fun r _ => ∀ ip off, r = some (ip, off) → ∃ k, n.lookup name = some k ∧
        off = direntSize * k)
        (dirlookup_spec (E := fun _ => True) hh (hh.open (Multiset.mem_cons_self _ _) rfl hn)
          (fun _ => trivial) (fun _ => trivial) (fun _ => trivial) (fun _ => nofun)
          fun k ip s' hk _ _ _ ip' off' he => ?_) hl ip off rfl
      cases he
      exact ⟨k, hk, rfl⟩
    obtain ⟨k, hk, rfl⟩ := hoff
    have hu := (lookup_some hk).1
    have hcleared : s'.node d = some (n.clearEntry k) := by
      refine wp_ok (Q := fun w s' => w = some direntSize → s'.node d = some (n.clearEntry k))
        (writeEntry_spec (E := fun _ => True) hh₂ (Multiset.mem_cons_self _ _) rfl (hn2.trans hn)
          (Nat.le_of_lt hu.1) (fun w _ hw _ _ _ he => absurd he hw) fun s' _ _ hn' _ => ?_) hm rfl
      rw [hn']
      exact update_self ..
    exact ⟨_, hcleared, ht, hb.clearEntry hk (hb.named.two_le_of_lookup hk h0 h1)⟩
  | other h hn ih =>
    obtain ⟨n, hn', hrest⟩ := ih
    exact ⟨n, hn.trans hn', hrest⟩

/-- A name without a terminator counts up to its first `dirSiz` bytes. -/
theorem nameOf_take (h0 : (0 : UInt8) ∉ name) : nameOf name.byte = name.take dirSiz := by
  have hcut : nameOf name.byte = nameOf (Name.byte (name.take dirSiz)) :=
    nameOf_congr fun i hi => by
    unfold Name.byte
    rw [List.getD_eq_getElem?_getD, List.getD_eq_getElem?_getD, List.getElem?_take_of_lt hi]
  rw [hcut]
  exact nameOf_byte (List.length_take_le _ _) fun h => h0 (List.mem_of_mem_take h)

/-- **Directories are maps.** After any calls that a directory has seen since it had `.` and `..`
only: names in use are distinct, `.` and `..` are in front, and the entries bind names as the calls
amount to. `dirlookup` reads the map; `dirlink` fails exactly if the name is bound or there is no
room for the entry, and otherwise fills the first entry that is not in use, or a new one, which adds
the binding; `isdirempty` is true exactly if no name but `.` and `..` is bound. -/
theorem directory_is_map (h : Dirs sb d s M) (hh : Holds sb (⟨dp, d, true⟩ ::ₘ L) s)
    (hlk : ∀ e, s.locks e = true → ∃ r ∈ ⟨dp, d, true⟩ ::ₘ L, r.ptr = e) :
    (∀ name : Name, (0 : UInt8) ∉ name → nameOf name.byte = name.take dirSiz) ∧
    ∃ n, s.node d = some n ∧ Binds n M ∧
    (∀ name, wp (dirlookup sb dp name) (fun r s' => s'.node = s.node ∧
          M (nameOf name.byte) = r.map fun p => (s'.inode p.1).inum)
        (fun e => e = .noInodes ∧ Crowded L) s) ∧
      (∀ name inum, 0 < inum → inum < 2 ^ 16 → wp (dirlink sb dp name inum) (fun b s' =>
          (b = true ↔ M (nameOf name.byte) = none ∧ s.Room sb dp (direntSize * n.slot) direntSize) ∧
          ∃ n', s'.node d = some n' ∧ n' = (if b = true then n.setEntry n.slot name inum else n) ∧
            Binds n' (if b = true then update M (nameOf name.byte) (some inum) else M))
        (fun e => e = .noInodes ∧ Crowded L) s) ∧
      (n.slot < n.entries → s.Room sb dp (direntSize * n.slot) direntSize) ∧
      wp (isdirempty sb dp)
        (fun b s' => s' = s ∧ (b = true ↔ ∀ x, x ≠ dot → x ≠ dotdot → M x = none))
        (fun _ => False) s := by
  obtain ⟨n, hn, ht, hb⟩ := binds_of_dirs h
  have ho := hh.open (Multiset.mem_cons_self _ _) rfl hn
  refine ⟨fun name => nameOf_take, n, hn, hb, fun name => ?_, fun name inum h0 h16 => ?_, fun hlt =>
    ?_, ?_⟩
  · refine dirlookup_spec hh ho (fun h' => absurd ht h') (fun h' => absurd hb.named.size h')
      (fun hfull => ⟨rfl, crowded_of_full hfull⟩) (fun hl => ⟨rfl, hb.none_iff.mpr hl⟩)
      fun k ip s' hl h' hn' _ => ⟨hn', ?_⟩
    rw [hb.of_some hl]
    exact congrArg some (h'.inum _ (Multiset.mem_cons_self _ _)).symm
  · refine wp_mono (dirlink_binds hb hh hn ht (fun hfull => ⟨rfl, crowded_of_full hfull⟩)
      fun e he hno => ?_) (fun b s' hres => ⟨hres.1, _, hres.2, rfl, ?_⟩) fun _ he => he
    · obtain ⟨r, hr, hre⟩ := hlk e he
      exact absurd hre (hno r hr)
    · cases b with
      | false => exact hb
      | true => exact hb.setEntry (hb.none_iff.mp (hres.1.mp rfl).1) (Nat.ne_of_gt h0) h16
  · -- an entry inside the directory has its block
    have hend : direntSize * n.slot + direntSize ≤ n.size := by
      have hsize := hb.named.size
      unfold Node.entries at hlt
      unfold direntSize at *
      omega
    have hsz := ho.size_le
    refine ⟨⟨by rw [ho.size_eq]; omega, by omega⟩, ?_⟩
    have hdin := Store.din_of_valid ho.wf.uniq ho.valid
    rw [lacks_eq_zero fun k hk =>
      ho.wf.holes _ k trivial (by rw [hdin]; exact ho.wf.typed dp ho.valid) ?_]
    · exact Nat.zero_le _
    · rw [hdin, ho.size_eq]
      exact hk.trans_le hend
  · refine isdirempty_spec ho (fun h' => absurd hb.named.size h') fun b hiff =>
      ⟨rfl, hiff.trans hb.empty_iff⟩

/-- In the root directory `a` and `b` are linked, and `a` is looked up and cleared. -/
def linkTwoClearOne : Act Store Stop (Bool × Bool × Option (Ptr × ℕ) × Option ℕ) := do
  let linked ← dirlink rootSuper 0 [97] 1
  let linked' ← dirlink rootSuper 0 [98] 1
  let found ← dirlookup rootSuper 0 [97]
  let wrote ← writei rootSuper 0 (fun _ => 0) (fun _ => none) ((found.map Prod.snd).getD 0)
    direntSize
  pure (linked, linked', found, wrote)

theorem holds_dirlink_of_dirs {s' : Store} {inum : ℕ} {b : Bool} (h : Dirs sb d s M)
    (hh : Holds sb (⟨dp, d, true⟩ ::ₘ L) s) (hm : dirlink sb dp name inum s = .ok (b, s')) :
    Holds sb (⟨dp, d, true⟩ ::ₘ L) s' := by
  obtain ⟨n, hn, -, -⟩ := binds_of_dirs h
  exact wp_ok (Q := fun _ s' => Holds sb (⟨dp, d, true⟩ ::ₘ L) s')
    (dirlink_spec (E := fun _ => True) hh hn (fun _ => trivial)
    (fun _ => ⟨trivial, trivial⟩) (fun _ => trivial) (fun _ _ _ => trivial) (fun _ _ h' _ => h')
    (fun _ _ _ _ _ _ _ h' _ => h') fun _ _ _ h' _ => h') hm

theorem directory_is_map_cleared : ∃ s M n, Dirs rootSuper rootIno s M ∧
    s.node rootIno = some n ∧ Binds n M ∧ M [97] = none ∧ M [98] = some 1 ∧
    wp (isdirempty rootSuper 0) (fun b _ => b = false) (fun _ => False) s := by
  obtain ⟨n, hn, ht, h2, h0, h1⟩ : ∃ n ∈ rootSystem.store.node rootIno, n.type = .dir ∧
      n.size = 2 * direntSize ∧ ((n.entry 0).inum ≠ 0 ∧ nameOf (n.entry 0).name = dot) ∧
      ((n.entry 1).inum ≠ 0 ∧ nameOf (n.entry 1).name = dotdot) := by decide +kernel
  have hrun : (linkTwoClearOne rootSystem.store).toOption.any (fun x =>
      x.1.1 && x.1.2.1 && x.1.2.2.1.isSome && x.1.2.2.2 == some direntSize &&
        decide (∀ e, x.2.locks e = false)) = true := by decide +kernel
  cases hx : linkTwoClearOne rootSystem.store with
  | error e =>
    rw [hx] at hrun
    cases hrun
  | ok x =>
    rw [hx] at hrun
    obtain ⟨x, s⟩ := x
    simp only [Except.toOption, Option.any_some, Bool.and_eq_true, beq_iff_eq,
      decide_eq_true_eq] at hrun
    obtain ⟨⟨⟨⟨hb, hb'⟩, hfound⟩, hwrote⟩, hfree⟩ := hrun
    obtain ⟨b, s1, hlink, hx⟩ := bind_eq_ok hx
    obtain ⟨b', s2, hlink', hx⟩ := bind_eq_ok hx
    obtain ⟨r, s3, hlook, hx⟩ := bind_eq_ok hx
    obtain ⟨w, s4, hwrite, hx⟩ := bind_eq_ok hx
    cases hx
    obtain ⟨⟨ip, off⟩, rfl⟩ := Option.isSome_iff_exists.mp hfound
    obtain rfl : b = true := hb
    obtain rfl : b' = true := hb'
    obtain rfl : w = some direntSize := hwrote
    have hd0 : Dirs rootSuper 1 _ _ := .start hn ht h2 h0 h1
    have hh0 : Holds rootSuper (⟨0, 1, true⟩ ::ₘ 0) rootSystem.store := rootSystem_holds.1
    have hd1 := hd0.dirlink hh0 Nat.one_pos (by decide) hlink
    have hh1 := holds_dirlink_of_dirs hd0 hh0 hlink
    have hd2 := hd1.dirlink hh1 Nat.one_pos (by decide) hlink'
    have hh2 := holds_dirlink_of_dirs hd1 hh1 hlink'
    obtain ⟨n2, hn2, -, -⟩ := binds_of_dirs hd2
    obtain ⟨k, hoff, hk, i, hh3, hn3⟩ : ∃ k, off = direntSize * k ∧ k ≤ n2.entries ∧
        ∃ i, Holds rootSuper (⟨0, 1, true⟩ ::ₘ {⟨ip, i, false⟩}) s3 ∧ s3.node = s2.node := by
      refine wp_ok (Q := fun r s3 => ∀ ip off, r = some (ip, off) → ∃ k, off = direntSize * k ∧
          k ≤ n2.entries ∧ ∃ i, Holds rootSuper (⟨0, 1, true⟩ ::ₘ {⟨ip, i, false⟩}) s3 ∧
          s3.node = s2.node)
        (dirlookup_spec (E := fun _ => True) hh2 (hh2.open (Multiset.mem_cons_self _ _) rfl hn2)
          (fun _ => trivial) (fun _ => trivial) (fun _ => trivial) (fun _ => nofun)
          fun k ip s' hk hh' hn' _ ip' off' he => ?_) hlook ip off rfl
      cases he
      refine ⟨k, rfl, Nat.le_of_lt (lookup_some hk).1.1, (n2.entry k).inum, ?_, hn'⟩
      rw [Multiset.cons_swap] at hh'
      exact hh'
    have hd4 := hd2.clear hh2 (by decide) (by decide) hlook hh3 (congrFun hn3 _) hwrite
    have hh4 : Holds rootSuper (⟨0, 1, true⟩ ::ₘ {⟨ip, i, false⟩}) s := by
      rw [hoff] at hwrite
      exact wp_ok (Q := fun _ s' => Holds rootSuper (⟨0, 1, true⟩ ::ₘ {⟨ip, i, false⟩}) s')
        (writeEntry_spec (E := fun _ => True) hh3 (Multiset.mem_cons_self _ _) rfl
        (hn3 ▸ hn2) hk (fun _ _ _ _ h' _ => h') fun _ _ h' _ => h') hwrite
    obtain ⟨_, m, hm, hbinds, _, _, _, hempty⟩ := directory_is_map hd4 hh4
      fun e he => absurd ((hfree e).symm.trans he) nofun
    refine ⟨s, _, m, hd4, hm, hbinds, rfl, rfl, wp_mono hempty (fun b _ hres => ?_) fun _ he => he⟩
    rw [← Bool.not_eq_true, hres.2]
    intro hno
    exact absurd (hno [98] (by decide) (by decide)) nofun

end Xv6.Fs
