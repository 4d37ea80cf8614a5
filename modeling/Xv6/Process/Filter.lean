/-
  The system-call filter over whole runs.

  `sys_set_filter` overwrites `sc_filter` with its argument, whatever was there. A process whose
  mask leaves the bit of `set_filter` set can widen its filter or remove it with mask 0
  (`filter_removed`). `filter_permanent` is what is left: as long as the process narrows its own
  filter only, no handler outside the first mask runs on its behalf, and an attempt is the end
  of the process.

  `kfork` does not copy `sc_filter`. The child starts with what the last process of its slot
  left there, usually 0 (`fork_escapes_filter`). `filter_confines_subtree` is about the runs in
  which the slot happens to hold the parent's filter.
-/
import Xv6.Process.Condemned

namespace Xv6.Process

open Xv6.Lib

variable {s s' : Sys} {e : Ev} {i j : Slot} {c : Syscall} {mask m : BitVec 64}

/-- The bit of call `c` is set in mask `m`. -/
def Grants (m : BitVec 64) (c : Syscall) : Prop :=
  m.getLsbD c.num = true

instance (m : BitVec 64) (c : Syscall) : Decidable (Grants m c) :=
  inferInstanceAs (Decidable (m.getLsbD c.num = true))

/-- `syscall` runs the handler of `c` for slot `i`. -/
def Enters (s s' : Sys) (i : Slot) (c : Syscall) : Prop :=
  step s (.dispatch i) = some s' ∧ lookup (s.proc i).tf.a7 = some c ∧
    s'.pos i = c.entry (s.proc i).tf

theorem entry_ne_ret (c : Syscall) (tf : Trapframe) : c.entry tf ≠ .ret := by
  cases c <;> exact nofun

/-- A handler that runs has passed the filter. -/
theorem Enters.allowed (h : Enters s s' i c) : filterAllows (s.proc i).scFilter c = true := by
  obtain ⟨hs, hc, hpos⟩ := h
  obtain ⟨he, rfl⟩ := step_eq_some.mp hs
  rw [next_pos, posEdit, if_pos rfl, dispatchPos, hc] at hpos
  cases hf : filterAllows (s.proc i).scFilter c with
  | true => rfl
  | false =>
    simp only [hf] at hpos
    exact absurd hpos.symm (entry_ne_ret _ _)

/-! ## One process -/

/-- A filter is on, and it grants nothing that `mask` does not grant. -/
def Narrower (m mask : BitVec 64) : Prop :=
  m ≠ 0 ∧ ∀ c, Grants m c → Grants mask c

/-- While the process in slot `i` lives, it sets no filter that is wider than `mask`. -/
def NarrowsOnly (mask : BitVec 64) (i : Slot) (s : Sys) (e : Ev) : Prop :=
  ¬ e.frees i ∧ (e = .setFilter i → Narrower (s.proc i).tf.a0 mask)

theorem Narrower.grants (h : Narrower m mask) (ha : filterAllows m c = true) : Grants mask c := by
  rcases (filterAllows_iff m c).mp ha with hz | hb
  · exact absurd hz h.1
  · exact h.2 c hb

theorem narrower_step (h : Narrower (s.proc i).scFilter mask) (hok : NarrowsOnly mask i s e) :
    Narrower ((next s e).proc i).scFilter mask := by
  cases next_kind s i e with
  | quiet _ _ hf _ | marked _ _ _ hf _ | created _ _ hf _ => rw [hf]; exact h
  | filtered he _ _ hf _ => rw [hf]; exact hok.2 he
  | freed he _ _ _ => exact absurd he hok.1

/-- A forbidden call condemns the process. -/
theorem condemned_of_violation (hs : step s (.dispatch i) = some s') (hv : Violates (s.proc i)) :
    Condemned s' i := by
  obtain ⟨he, rfl⟩ := step_eq_some.mp hs
  obtain ⟨c, hc, hf⟩ := hv
  have hrun : (s.proc i).state = .running := (decide_eq_true_iff.mp he).1
  have hproc : (next s (.dispatch i)).proc i = { s.proc i with killed := true }.setA0 (-1) := by
    rw [next_proc, edit, on_same, syscallEdit, hc]
    simp [hf]
  have hpos : (next s (.dispatch i)).pos i = .ret := by
    rw [next_pos, posEdit, if_pos rfl, dispatchPos, hc]
    simp [hf]
  refine ⟨by rw [hproc]; rfl, .inl ⟨by rw [hpos]; rfl, ?_⟩⟩
  rw [show ((next s (.dispatch i)).proc i).state = .running by rw [hproc]; exact hrun]
  simp

/-- **A filter is permanent as long as it is only narrowed.** A process has executed
    `set_filter(mask)` with a nonzero mask. In every later run in which its own further
    `set_filter` calls are narrower than `mask`: a handler that runs on its behalf is one that
    `mask` grants, and an attempt at another one marks it killed, after which it is never again
    in user mode. -/
theorem filter_permanent {tr₀ tr : List Ev} {s₀ s₁ : Sys}
    (h₀ : Run (Fires step) Sys.boot tr₀ s₀) (hset : step s₀ (.setFilter i) = some s₁)
    (hmask : (s₀.proc i).tf.a0 = mask) (hne : mask ≠ 0)
    (h : Run (Where (NarrowsOnly mask i) (Fires step)) s₁ tr s) :
    (∀ c s', Enters s s' i c → Grants mask c) ∧
    ∀ c s', step s (.dispatch i) = some s' → lookup (s.proc i).tf.a7 = some c → ¬ Grants mask c →
      (s'.proc i).killed = true ∧
      ∀ tr' s'', Run (Where (NotReaped i) (Fires step)) s' tr' s'' → s''.pos i ≠ .user := by
  have hw1 : ForkWf s₁ := forkWf_run (h₀.snoc hset)
  obtain ⟨-, rfl⟩ := step_eq_some.mp hset
  have hn1 : Narrower ((next s₀ (.setFilter i)).proc i).scFilter mask := by
    rw [next_proc, edit, on_same]
    exact ⟨hmask ▸ hne, fun c hc => hmask ▸ hc⟩
  obtain ⟨hw, hn⟩ : ForkWf s ∧ Narrower (s.proc i).scFilter mask := by
    refine h.inv_state (I := fun s => ForkWf s ∧ Narrower (s.proc i).scFilter mask) ⟨hw1, hn1⟩ ?_
    rintro s e s' ⟨hw, hn⟩ ⟨hok, hs⟩
    obtain ⟨he, rfl⟩ := step_eq_some.mp hs
    exact ⟨forkWf_step hw he, narrower_step hn hok⟩
  refine ⟨fun c s' hent => hn.grants hent.allowed, ?_⟩
  intro c s' hs hc hbit
  have hv : Violates (s.proc i) := by
    refine ⟨c, hc, ?_⟩
    by_contra hf
    exact hbit (hn.grants (Bool.not_eq_false _ ▸ hf))
  have hcond := condemned_of_violation hs hv
  obtain ⟨he, rfl⟩ := step_eq_some.mp hs
  exact ⟨hcond.killed, fun tr' s'' hr => (condemned_run (forkWf_step hw he) hcond hr).not_user⟩

/-- The first process sets the filter `mask` and is back in user mode. -/
def setFilterRun (mask : BitVec 64) : List Ev :=
  Syscall.call .setFilter 0 mask ++ [.setFilter 0, .ret 0]

/-- A mask that grants `write` only, and then a call of `getpid`. -/
theorem filter_permanent_getpid :
    ∃ s₀ s₁ s s', exec step Sys.boot (bootRun ++ Syscall.call .setFilter 0 65536) = some s₀ ∧
      step s₀ (.setFilter 0) = some s₁ ∧
      exec step s₁ [.ret 0, .ecall 0 ⟨0, 0, 0, 0, 11⟩] = some s ∧
      step s (.dispatch 0) = some s' ∧ (s'.proc 0).killed = true ∧
      ∀ tr' s'', Run (Where (NotReaped 0) (Fires step)) s' tr' s'' → s''.pos 0 ≠ .user := by
  obtain ⟨s₀, s₁, s, s', h0, ha, h1, hx, hs, hc⟩ : ∃ s₀ s₁ s s',
      exec step Sys.boot (bootRun ++ Syscall.call .setFilter 0 65536) = some s₀ ∧
      (s₀.proc 0).tf.a0 = 65536 ∧ step s₀ (.setFilter 0) = some s₁ ∧
      exec step s₁ [.ret 0, .ecall 0 ⟨0, 0, 0, 0, 11⟩] = some s ∧
      step s (.dispatch 0) = some s' ∧ lookup (s.proc 0).tf.a7 = some .getpid :=
    ⟨_, _, _, _, rfl, rfl, rfl, rfl, rfl, rfl⟩
  have hrun : Run (Where (NarrowsOnly 65536 0) (Fires step)) s₁ [.ret 0, .ecall 0 ⟨0, 0, 0, 0, 11⟩]
      s := by
    obtain ⟨s2, hs2, hx⟩ := Option.bind_eq_some_iff.mp hx
    obtain ⟨s3, hs3, hx⟩ := Option.bind_eq_some_iff.mp hx
    cases hx
    exact .cons ⟨⟨id, nofun⟩, hs2⟩ (.cons ⟨⟨id, nofun⟩, hs3⟩ .nil)
  have hp := filter_permanent (run_of_exec h0) h1 ha (by decide) hrun
  exact ⟨s₀, s₁, s, s', h0, h1, hx, hs, hp.2 .getpid s' hs hc (by decide)⟩

/-- `set_filter` with only its own bit set, then `set_filter(0)`: `getpid` runs again. -/
theorem filter_removed :
    ∃ s₀ s₁ s s', Run (Fires step) Sys.boot (bootRun ++ Syscall.call .setFilter 0 0x20000000) s₀ ∧
      (s₀.proc 0).tf.a0 = 0x20000000 ∧ step s₀ (.setFilter 0) = some s₁ ∧
      Run (Fires step) s₁ (.ret 0 :: setFilterRun 0 ++ [.ecall 0 ⟨0, 0, 0, 0, 11⟩]) s ∧
      Enters s s' 0 .getpid ∧ ¬ Grants 0x20000000 .getpid := by
  obtain ⟨s₀, s₁, s, s', h0, ha, h1, hx, hs, hc, hp⟩ : ∃ s₀ s₁ s s',
      exec step Sys.boot (bootRun ++ Syscall.call .setFilter 0 0x20000000) = some s₀ ∧
      (s₀.proc 0).tf.a0 = 0x20000000 ∧ step s₀ (.setFilter 0) = some s₁ ∧
      exec step s₁ (.ret 0 :: setFilterRun 0 ++ [.ecall 0 ⟨0, 0, 0, 0, 11⟩]) = some s ∧
      step s (.dispatch 0) = some s' ∧ lookup (s.proc 0).tf.a7 = some .getpid ∧
      s'.pos 0 = Syscall.entry .getpid (s.proc 0).tf :=
    ⟨_, _, _, _, rfl, rfl, rfl, rfl, rfl, rfl, rfl⟩
  exact ⟨s₀, s₁, s, s', run_of_exec h0, ha, h1, run_of_exec hx, ⟨hs, hc, hp⟩, by decide⟩

/-! ## The processes below -/

/-- A process and its living descendants, and the filters they have set since. -/
structure Lineage where
  members : Finset Slot
  changes : List (BitVec 64)

/-- A fork of a member adds the child, a reaped member leaves, and a member's `set_filter` is
    recorded with its mask. -/
def Lineage.next (l : Lineage) (s : Sys) : Ev → Lineage
  | .forkAlloc i c (some _) =>
    if i ∈ l.members then { l with members := insert c l.members } else l
  | .waitReap _ c true => { l with members := l.members.erase c }
  | .setFilter i =>
    if i ∈ l.members then { l with changes := (s.proc i).tf.a0 :: l.changes } else l
  | _ => l

/-- `step` next to the lineage. -/
def stepL (x : Sys × Lineage) (e : Ev) : Option (Sys × Lineage) :=
  (step x.1 e).map fun s' => (s', x.2.next x.1 e)

theorem stepL_eq_some {x y : Sys × Lineage} :
    stepL x e = some y ↔ enabled x.1 e = true ∧ y = (next x.1 e, x.2.next x.1 e) := by
  unfold stepL
  rw [Option.map_eq_some_iff]
  constructor
  · rintro ⟨s', hs, rfl⟩
    obtain ⟨he, rfl⟩ := step_eq_some.mp hs
    exact ⟨he, rfl⟩
  · rintro ⟨he, rfl⟩
    exact ⟨_, step_eq_some.mpr ⟨he, rfl⟩, rfl⟩

/-- A process with a filter forks into a slot whose last process left the same filter there. -/
def SlotHoldsFilter (s : Sys) : Ev → Prop
  | .forkAlloc i c (some _) =>
    (s.proc i).scFilter ≠ 0 → (s.proc c).scFilter = (s.proc i).scFilter
  | _ => True

instance (s : Sys) (e : Ev) : Decidable (SlotHoldsFilter s e) :=
  match e with
  | .forkAlloc i c (some _) => inferInstanceAs (Decidable
      ((s.proc i).scFilter ≠ 0 → (s.proc c).scFilter = (s.proc i).scFilter))
  | .forkAlloc _ _ none => isTrue trivial
  | .killHit .. | .userinit .. | .schedule _ | .yield _ | .sleep .. | .wakeup _ | .trap ..
  | .ecall .. | .dispatch _ | .setFilter _ | .exec .. | .sysret .. | .forkSkip .. | .forkFull _
  | .forkLink .. | .forkRun .. | .forkret .. | .killSkip .. | .killNone .. | .waitReap ..
  | .waitNone _ | .waitSleep _ | .exitClose .. | .exitZombie .. | .ret _ => isTrue trivial

/-- Every member has the filter `f`, or one that a member has set, or the filter was off
    somewhere on the way; and nothing was set unless `f` grants `set_filter`. -/
structure Confined (f : BitVec 64) (s : Sys) (l : Lineage) : Prop where
  filter : ∀ d ∈ l.members, (s.proc d).scFilter = f ∨ (s.proc d).scFilter ∈ l.changes ∨
    0 ∈ l.changes
  entering : ∀ d ∈ l.members, s.pos d = .handler .setFilter → filterAllows f .setFilter = true
  changed : l.changes ≠ [] → filterAllows f .setFilter = true

/-- A member that gets past the filter test does so with `f` or with a filter that was set. -/
theorem Confined.allowed {f : BitVec 64} {l : Lineage} (hc : Confined f s l) {d : Slot}
    (hd : d ∈ l.members) (ha : filterAllows (s.proc d).scFilter c = true) :
    filterAllows f c = true ∨
      (filterAllows f .setFilter = true ∧ ∃ m ∈ l.changes, filterAllows m c = true) := by
  have hset : ∀ {m}, m ∈ l.changes → filterAllows f .setFilter = true :=
    fun hm => hc.changed (List.ne_nil_of_mem hm)
  rcases hc.filter d hd with h | h | h
  · exact .inl (h ▸ ha)
  · exact .inr ⟨hset h, _, h, ha⟩
  · exact .inr ⟨hset h, 0, h, filterAllows_zero c⟩

/-- A thread gets into `sys_set_filter` through the filter test only. -/
theorem entering_step {d : Slot} (h : (next s e).pos d = .handler .setFilter) :
    s.pos d = .handler .setFilter ∨ filterAllows (s.proc d).scFilter .setFilter = true := by
  rw [next_pos] at h
  have quiet : ∀ {k : Slot} {q : Pos}, (if d = k then q else s.pos d) = .handler .setFilter →
      q ≠ .handler .setFilter → s.pos d = .handler .setFilter := by
    intro k q h hq
    split at h
    · exact absurd h hq
    · exact h
  cases e with
  | schedule | yield | sleep | wakeup | waitSleep => exact Or.inl h
  | dispatch k =>
    rw [posEdit] at h
    split at h
    · rename_i hk
      subst hk
      refine Or.inr ?_
      unfold dispatchPos at h
      split at h
      · rename_i c _
        split at h
        · rename_i hf
          cases c <;> first | exact hf | cases h
        · cases h
      · cases h
    · exact Or.inl h
  | ecall | ret => exact Or.inl (quiet h (by split <;> simp))
  | forkAlloc k ch m =>
    cases m with
    | none => exact Or.inl (quiet h (by simp))
    | some m =>
      rw [posEdit] at h
      split at h
      · cases h
      · exact Or.inl (quiet h (by simp))
  | _ => exact Or.inl (quiet h (by simp))

theorem scFilter_fork (s : Sys) (i j ch : Slot) (m : Option ProcPages) :
    ((next s (.forkAlloc i ch m)).proc j).scFilter = (s.proc j).scFilter :=
  scFilter_keep nofun

section Confined

variable {f : BitVec 64} {l : Lineage}

theorem Confined.entering_next (hc : Confined f s l) {d : Slot} (hd : d ∈ l.members)
    (hp : (next s e).pos d = .handler .setFilter) : filterAllows f .setFilter = true := by
  rcases entering_step hp with h | h
  · exact hc.entering d hd h
  · rcases hc.allowed hd h with h | ⟨h, _⟩ <;> exact h

/-- An event that changes the filter of no member, when no member joins. -/
theorem Confined.keep (hc : Confined f s l) {members : Finset Slot} (hsub : members ⊆ l.members)
    (hf : ∀ d ∈ members, e ≠ .setFilter d) : Confined f (next s e) ⟨members, l.changes⟩ where
  filter d hd := by
    rw [scFilter_keep (hf d hd)]
    exact hc.filter d (hsub hd)
  entering _ hd := hc.entering_next (hsub hd)
  changed := hc.changed

theorem confined_setFilter (hc : Confined f s l) (he : enabled s (.setFilter i) = true) :
    Confined f (next s (.setFilter i)) (l.next s (.setFilter i)) := by
  rw [Lineage.next]
  split
  · rename_i hi
    have hpos : s.pos i = .handler .setFilter := (decide_eq_true_iff.mp he).2
    refine ⟨?_, fun _ hd => hc.entering_next hd, fun _ => hc.entering i hi hpos⟩
    intro d hd
    by_cases hdi : d = i
    · subst hdi
      refine .inr (.inl ?_)
      rw [next_proc, edit, on_same]
      exact List.mem_cons_self
    · rw [scFilter_keep (fun h => hdi (Ev.setFilter.inj h).symm)]
      rcases hc.filter d hd with h | h | h
      · exact .inl h
      · exact .inr (.inl (List.mem_cons_of_mem _ h))
      · exact .inr (.inr (List.mem_cons_of_mem _ h))
  · rename_i hi
    exact hc.keep (Finset.Subset.refl _) fun d hd h => hi ((Ev.setFilter.inj h).symm ▸ hd)

/-- The child of a member has the member's filter, or the member had none. -/
theorem confined_fork (hc : Confined f s l) (hne : f ≠ 0) {ch : Slot} {m : ProcPages}
    (hok : SlotHoldsFilter s (.forkAlloc i ch (some m))) (hch : ch ≠ i) :
    Confined f (next s (.forkAlloc i ch (some m))) (l.next s (.forkAlloc i ch (some m))) := by
  have hold : Confined f (next s (.forkAlloc i ch (some m))) l :=
    hc.keep (Finset.Subset.refl _) nofun
  rw [Lineage.next]
  split
  · rename_i hi
    refine ⟨?_, ?_, hold.changed⟩
    · intro d hd
      rcases Finset.mem_insert.mp hd with rfl | hd
      · rw [scFilter_fork]
        by_cases hz : (s.proc i).scFilter = 0
        · have h0 := hc.filter i hi
          rw [hz] at h0
          rcases h0 with h | h | h
          · exact absurd h.symm hne
          · exact .inr (.inr h)
          · exact .inr (.inr h)
        · rw [hok hz]
          exact hc.filter i hi
      · exact hold.filter d hd
    · intro d hd hp
      rcases Finset.mem_insert.mp hd with rfl | hd
      · rw [next_pos, posEdit, if_neg hch, if_pos rfl] at hp
        cases hp
      · exact hold.entering d hd hp
  · exact hold

theorem confined_step (hc : Confined f s l) (hne : f ≠ 0) (he : enabled s e = true)
    (hok : SlotHoldsFilter s e) : Confined f (next s e) (l.next s e) := by
  cases e with
  | setFilter i => exact confined_setFilter hc he
  | forkAlloc i ch m =>
    cases m with
    | none => exact hc.keep (Finset.Subset.refl _) nofun
    | some m =>
      refine confined_fork hc hne hok ?_
      rintro rfl
      have hrun : (s.proc ch).state = .running := (decide_eq_true_iff.mp he).1.1
      have hfree : (s.proc ch).state = .unused := (decide_eq_true_iff.mp he).2
      rw [hrun] at hfree
      cases hfree
  | waitReap i ch copied =>
    cases copied with
    | false => exact hc.keep (Finset.Subset.refl _) nofun
    | true => exact hc.keep (Finset.erase_subset ch l.members) nofun
  | _ => exact hc.keep (Finset.Subset.refl _) nofun

end Confined

/-- **A filter confines the processes below, as far as their slots hold it.** Process `p` has the
    filter `f` and is about to fork. In every run from there in which each fork by a filtered
    process meets a slot that holds the same filter: the child of a filtered process starts with
    its parent's filter, and a descendant that runs a handler outside `f` does so under a filter
    that one of them has set, which `f` allowed them to do. -/
theorem filter_confines_subtree {p : Slot} {k : Nat} {f : BitVec 64} {s₀ : Sys} {l : Lineage}
    {tr : List Ev} (hp : s₀.at_ p (.forkScan k)) (hf : (s₀.proc p).scFilter = f) (hne : f ≠ 0)
    (h : Run (Where (fun x => SlotHoldsFilter x.1) (Fires stepL)) (s₀, ⟨{p}, []⟩) tr (s, l)) :
    (∀ i ch pages s', SlotHoldsFilter s (.forkAlloc i ch (some pages)) →
      step s (.forkAlloc i ch (some pages)) = some s' → (s.proc i).scFilter ≠ 0 →
      (s'.proc ch).scFilter = (s.proc i).scFilter) ∧
    ∀ d ∈ l.members, ∀ c s', Enters s s' d c → ¬ Grants f c →
      Grants f .setFilter ∧ ∃ m ∈ l.changes, filterAllows m c = true := by
  have h0 : Confined f s₀ ⟨{p}, []⟩ := by
    refine ⟨?_, ?_, fun h => absurd rfl h⟩
    · intro d hd
      rw [Finset.mem_singleton.mp hd]
      exact .inl hf
    · intro d hd hpos
      rw [Finset.mem_singleton.mp hd, hp.2] at hpos
      cases hpos
  have hc : Confined f s l := by
    refine h.inv_state (I := fun x => Confined f x.1 x.2) h0 ?_
    rintro x e y hc ⟨hok, hs⟩
    obtain ⟨he, rfl⟩ := stepL_eq_some.mp hs
    exact confined_step hc hne he hok
  have hgrants : ∀ c, filterAllows f c = true → Grants f c := by
    intro c ha
    rcases (filterAllows_iff f c).mp ha with hz | hb
    · exact absurd hz hne
    · exact hb
  refine ⟨?_, ?_⟩
  · intro i ch pages s' hok hs hz
    obtain ⟨-, rfl⟩ := step_eq_some.mp hs
    rw [scFilter_fork]
    exact hok hz
  · intro d hd c s' hent hbit
    rcases hc.allowed hd hent.allowed with ha | ⟨hset, hm⟩
    · exact absurd (hgrants c ha) hbit
    · exact ⟨hgrants _ hset, hm⟩

/-- The first process has filter `mask` and calls `fork` with slot 1 UNUSED. -/
def filteredForkRun (mask : BitVec 64) : List Ev :=
  setFilterRun mask ++ Syscall.call .fork 0 0

/-- It forks into slot 1, and the child starts. -/
def startChild (pid : Int) : List Ev :=
  [.forkSkip 0 0, .forkAlloc 0 1 (some ⟨5, 6, 7⟩), .forkLink 0 1 pid, .forkRun 0 1 pid,
    .schedule 1, .forkret 1 none]

/-- A first child sets the filter 6 (`fork` and `exit`), exits and is reaped: slot 1 holds 6. -/
def staleFilterRun : List Ev :=
  bootRun ++ forkChild 2 ++ [.schedule 1, .forkret 1 none] ++ Syscall.call .setFilter 1 6 ++
    [.setFilter 1, .ret 1] ++ Syscall.call .exit 1 0 ++ [.exitClose 1 0, .exitZombie 1 0] ++
    Syscall.call .wait 0 0 ++ [.waitReap 0 1 true, .ret 0]

/-- The first process then takes the same filter and forks into slot 1. -/
theorem filter_confines_subtree_staleFilterRun :
    ∃ s₀ s l, exec step Sys.boot (staleFilterRun ++ filteredForkRun 6) = some s₀ ∧
    (s₀.proc 0).scFilter = 6 ∧
      exec (guarded (fun x => SlotHoldsFilter x.1) stepL) (s₀, ⟨{0}, []⟩) (startChild 3) =
        some (s, l) ∧
      1 ∈ l.members ∧ (s.proc 1).scFilter = 6 ∧
      ∀ c s', Enters s s' 1 c → ¬ Grants 6 c →
        Grants 6 .setFilter ∧ ∃ m ∈ l.changes, filterAllows m c = true := by
  obtain ⟨s₀, h0, h⟩ := exec_any step Sys.boot (staleFilterRun ++ filteredForkRun 6)
    (fun s₀ => s₀.at_ 0 (.forkScan 0) ∧ (s₀.proc 0).scFilter = 6 ∧
      (exec (guarded (fun x => SlotHoldsFilter x.1) stepL) (s₀, ⟨{0}, []⟩) (startChild 3)).any
        fun x => 1 ∈ x.2.members ∧ (x.1.proc 1).scFilter = 6)
    (by decide +kernel)
  obtain ⟨hp, hf, h⟩ := decide_eq_true_iff.mp h
  obtain ⟨⟨s, l⟩, hx, h⟩ := exec_any _ _ _ _ h
  obtain ⟨hm, hf'⟩ := decide_eq_true_iff.mp h
  exact ⟨s₀, s, l, h0, hf, hx, hm, hf',
    (filter_confines_subtree hp hf (by decide) (run_where_of_exec hx)).2 1 hm⟩

/-- A process whose filter grants `fork` and nothing else forks into a fresh slot. The child has
    no filter and runs `getpid`; nobody has called `set_filter`. -/
theorem fork_escapes_filter :
    ∃ s₀ s l s', Run (Fires step) Sys.boot (bootRun ++ filteredForkRun 2) s₀ ∧
      s₀.at_ 0 (.forkScan 0) ∧ (s₀.proc 0).scFilter = 2 ∧
      Run (Fires stepL) (s₀, ⟨{0}, []⟩) (startChild 2 ++ [.ecall 1 ⟨0, 0, 0, 0, 11⟩]) (s, l) ∧
      1 ∈ l.members ∧ (s.proc 1).scFilter = 0 ∧ l.changes = [] ∧
      Enters s s' 1 .getpid ∧ ¬ Grants 2 .getpid := by
  obtain ⟨s₀, s, l, s', h0, hp, hf, hx, hm, hz, hl, hs, hc, hpos⟩ : ∃ s₀ s l s',
      exec step Sys.boot (bootRun ++ filteredForkRun 2) = some s₀ ∧
      s₀.at_ 0 (.forkScan 0) ∧ (s₀.proc 0).scFilter = 2 ∧
      exec stepL (s₀, ⟨{0}, []⟩) (startChild 2 ++ [.ecall 1 ⟨0, 0, 0, 0, 11⟩]) = some (s, l) ∧
      1 ∈ l.members ∧ (s.proc 1).scFilter = 0 ∧ l.changes = [] ∧
      step s (.dispatch 1) = some s' ∧ lookup (s.proc 1).tf.a7 = some .getpid ∧
      s'.pos 1 = Syscall.entry .getpid (s.proc 1).tf :=
    ⟨_, _, _, _, rfl, ⟨rfl, rfl⟩, rfl, rfl, by decide, rfl, rfl, rfl, rfl, rfl⟩
  exact ⟨s₀, s, l, s', run_of_exec h0, hp, hf, run_of_exec hx, hm, hz, hl,
    ⟨hs, hc, hpos⟩, by decide⟩

end Xv6.Process
