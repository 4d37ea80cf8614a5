/-
  Path resolution: what `namei` and `nameiparent` return.

  A path is read as its components. `Follows` says where names lead, one directory after the other,
  and `Breaks` that they lead nowhere. The only other way for a call to end is the panic of `iget`
  when the inode table has no entry left (`Crowded`).
-/
import Xv6.Fs.System

namespace Xv6.Fs

open Lib Act

/-- Where the walk along a path starts. -/
def origin (cwd : ℕ) (path : Path) : ℕ := if path.head? = some slash then rootIno else cwd

section

variable {sb : Super} {L : Multiset Ref} {s : Store} {r : Ref}

/-- **Path resolution.** Repeated calls of `skipelem` return the components of a path in order. When
no sleep-lock is held, `namei` returns the inode that the components lead to, with one reference
more, and fails exactly if they break off; `nameiparent` returns the directory that all components
but the last lead to, with the last one, and fails if there are no components, or if those in front
break off or do not lead to a directory. A call that fails leaves the references as they were. -/
theorem paths_resolve (h : Good sb L s) (hr : r ∈ L) (hfree : ∀ e, s.locks e = false)
    (path : Path) :
    (∀ fuel, path.length < fuel → elements fuel path = components path) ∧
    wp (namei sb r.ptr path) (fun res s' => s'.node = s.node ∧
      (res = none ↔ Breaks s.node (origin r.inum path) (components path)) ∧
      (res = none → Holds sb L s') ∧
      ∀ ip, res = some ip → ∃ i b, Follows s.node (origin r.inum path) (components path) i ∧
        Holds sb (⟨ip, i, b⟩ ::ₘ L) s')
      (fun e => e = .noInodes ∧ Crowded L) s ∧
    wp (nameiparent sb r.ptr path) (fun res s' => s'.node = s.node ∧
      (res = none ↔ ∀ front name d n, components path = front ++ [name] →
        Follows s.node (origin r.inum path) front d → s.node d = some n → n.type ≠ .dir) ∧
      (res = none → Holds sb L s') ∧
      ∀ dp name, res = some (dp, name) → ∃ front d b, components path = front ++ [name] ∧
        Follows s.node (origin r.inum path) front d ∧ Holds sb (⟨dp, d, b⟩ ::ₘ L) s')
      (fun e => e = .noInodes ∧ Crowded L) s := by
  have hst := h.start
  have hcalm : Calm s := ⟨hfree, fun hd ht => (h.quiet.tree.dirs hd ht).size⟩
  refine ⟨fun fuel hfuel => elements_eq hfuel, ?_, ?_⟩
  · obtain ⟨hbreak, hfollow⟩ := walk_namei (N := s.node) (i := origin r.inum path)
      (Nat.lt_succ_self path.length)
    unfold namei
    refine wp_seq (namex_spec (fun h' => absurd ⟨hcalm, hst⟩ h') (fun h' => ⟨rfl, h'⟩) h.holds hr
      (fun h' => absurd hst h') (fun s' h' hres => wp_pure.mpr ?_)
      fun ip i b nm s' h' hres => wp_pure.mpr ?_)
    · obtain ⟨hn, hw⟩ := hres hst
      exact ⟨hn, ⟨fun _ => hbreak.mp hw, fun _ => rfl⟩, fun _ => h', nofun⟩
    · obtain ⟨hn, hw, _⟩ := hres hst
      refine ⟨hn, ⟨nofun, fun hb => ?_⟩, nofun, fun ip' he => ?_⟩
      · exact absurd (hw.symm.trans (hbreak.mpr hb)) nofun
      · cases he
        exact ⟨i, b, ((hfollow i nm).mp hw).2, h'⟩
  · have hparent : ∀ d name, walk s.node true (path.length + 1) (origin r.inum path) path =
        some (d, name) ↔ _ :=
      fun d _ => walk_nameiparent (Nat.lt_succ_self path.length) d
    refine namex_spec (fun h' => absurd ⟨hcalm, hst⟩ h') (fun h' => ⟨rfl, h'⟩) h.holds hr
      (fun h' => absurd hst h') (fun s' h' hres => ?_) fun dp d b name s' h' hres => ?_
    · obtain ⟨hn, hw⟩ := hres hst
      refine ⟨hn, ⟨fun _ front name d n hc hf hd ht => ?_, fun _ => rfl⟩, fun _ => h', nofun⟩
      exact absurd (hw.symm.trans ((hparent d name).mpr ⟨front, hc, hf, n, hd, ht⟩)) nofun
    · obtain ⟨hn, hw, _⟩ := hres hst
      obtain ⟨front, hc, hf, n, hd, ht⟩ := (hparent d name).mp hw
      refine ⟨hn, ⟨nofun, fun hno => absurd ht (hno front name d n hc hf hd)⟩, nofun,
        fun dp' name' he => ?_⟩
      cases he
      exact ⟨front, d, b, hc, hf, h'⟩

end

/-- A call returned the given result. -/
def returns {α : Type} [DecidableEq α] (m : FsM α) (s : Store) (a : α) : Bool :=
  match m s with
  | .ok r => decide (r.1 = a)
  | .error _ => false

theorem ok_of_returns {α : Type} [DecidableEq α] {m : FsM α} {s : Store} {a : α}
    (h : returns m s a = true) :
    ∃ s', m s = .ok (a, s') := by
  unfold returns at h
  cases hm : m s with
  | ok r =>
    rw [hm] at h
    exact ⟨r.2, by rw [← of_decide_eq_true h]⟩
  | error e =>
    rw [hm] at h
    cases h

theorem paths_resolve_root : ∃ s', namei rootSuper 0 [47, 46, 46, 47, 47] rootSystem.store = .ok
    (some 0, s') ∧
    ∃ i b, Follows rootSystem.store.node rootIno [[46, 46]] i ∧
      Holds rootSuper {⟨0, i, b⟩, ⟨0, 1, true⟩} s' := by
  have hgood : Good rootSuper {⟨0, 1, true⟩} rootSystem.store :=
    rootSystem_refs ▸ rootSystem_consistent.good
  have hw := (paths_resolve hgood (Multiset.mem_singleton_self _) (by decide +kernel)
    [47, 46, 46, 47, 47]).2.1
  obtain ⟨s', hm⟩ := ok_of_returns (m := namei rootSuper 0 [47, 46, 46, 47, 47])
    (s := rootSystem.store)
    (a := some 0) (by decide +kernel)
  exact ⟨s', hm, (wp_ok hw hm).2.2.2 0 rfl⟩

/-- `namei` finds the file `/f`, but `nameiparent` does not return it for `/f/x`. -/
theorem parent_is_file : ∃ t c, Run (Fires (Call.step rootSuper)) rootSystem
      [((), .open (some [47, 102]) 0x201)] t ∧ (t.proc ()).cwd = some c ∧
    components [47, 102, 47, 120] = [[102]] ++ [[120]] ∧ Follows t.store.node rootIno [[102]] 2 ∧
    (∃ s', namei rootSuper c [47, 102] t.store = .ok (some 1, s')) ∧
    ∃ s', nameiparent rootSuper c [47, 102, 47, 120] t.store = .ok (none, s') := by
  obtain ⟨t, ht, hP⟩ :=
    exec_any (Call.step rootSuper) rootSystem [((), .open (some [47, 102]) 0x201)]
    (fun t => decide ((t.proc ()).cwd = some 0 ∧
      (∃ n ∈ t.store.node 1, n.type = .dir ∧ n.lookup [102] = some 2 ∧ (n.entry 2).inum = 2) ∧
      returns (namei rootSuper 0 [47, 102]) t.store (some 1) = true ∧
      returns (nameiparent rootSuper 0 [47, 102, 47, 120]) t.store none = true))
    (by decide +kernel)
  obtain ⟨hc, ⟨n, hn, hd, hl, h2⟩, h3, h4⟩ := of_decide_eq_true hP
  exact ⟨t, 0, run_of_exec ht, hc, by decide, ⟨n, 2, hn, hd, hl, h2⟩, ok_of_returns h3,
    ok_of_returns h4⟩

end Xv6.Fs
