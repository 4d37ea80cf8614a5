/-
  No wakeup is lost.

  A process is committed to sleep on the channel from the release of the condition lock in
  `sleep` until somebody makes it runnable. It commits with the condition false, and it holds its
  own lock until it is `SLEEPING` and off the CPU. So while the condition lock is held nobody
  commits, and a `wakeup` that is called with the lock held leaves behind it no committed process
  (`Awake.scan`). If the condition is true and somebody is committed, the holder of the lock owes
  a `wakeup` (`Awake.due`).
-/
import Xv6.Sched.Tables

namespace Xv6.Sched

open Lib Process Function

variable {n : ℕ} {M C K R : Type}

/-- The `wakeup(c)` in progress is done with slot `j`. -/
def Pc.Scanned (c : C) (j : ℕ) : Pc n C K → Prop
  | .wake _ x i => x = c ∧ j < i
  | .wakeIn _ x i => x = c ∧ j < i
  | .wakeOut _ x i => x = c ∧ j ≤ i
  | _ => False

/-- Process `p` sleeps on the channel, or will do so without looking at the condition again. -/
def State.Committed (cfg : Cfg n C K) (s : State n M C K R) (p : Fin n) : Prop :=
  (∃ m k, (s.cpu m).on = some p ∧
    ((s.cpu m).pc = .sleep2 cfg.chan k ∨ (s.cpu m).pc = .sleep3 cfg.chan k)) ∨
  s.Off p ∧ (s.proc p).state = .sleeping ∧ ∃ k, (s.proc p).pc = .asleep cfg.chan k

structure Awake (cfg : Cfg n C K) (s : State n M C K R) : Prop where
  test : ∀ m k, (s.cpu m).pc = .sleep0 cfg.chan k ∨ (s.cpu m).pc = .sleep1 cfg.chan k →
    k = cfg.lk ∧ s.lock cfg.lk = some m ∧ s.cond = false
  due : ∀ p, s.Committed cfg p → s.cond = true → s.due = true
  woke : s.woke = true → ∀ p, ¬ s.Committed cfg p
  scan : ∀ m (j : Fin n), s.lock cfg.lk = some m → (s.cpu m).pc.Scanned cfg.chan j →
    ¬ s.Committed cfg j
  held : s.due = true ∨ s.woke = true → ∃ m, s.lock cfg.lk = some m

/-! ## Edges -/

namespace Edge

variable [DecidableEq C] {cfg : Cfg n C K} {o : Option (Fin n)} {pc pc' : Pc n C K}
  {op : Op n C K R}
  {q : Fin n} {g : PRec n C K R → Prop} {f : PRec n C K R → PRec n C K R} {c : PRec n C K R}
  {x : C} {k : K}

/-- The way into `sleep`. -/
theorem of_sleep (he : Edge cfg o pc op pc') (h1 : ∀ p b, op ≠ .swtchIn p b)
    (h2 : ∀ p b, op ≠ .iret p b) :
    (pc' = .sleep0 x k → op = .test x k) ∧
    (pc' = .sleep1 x k → pc = .sleep0 x k ∧ ∃ p, op = .lock p) ∧
      (pc' = .sleep2 x k → pc = .sleep1 x k ∧ op = .release k) ∧
      (pc' = .sleep3 x k → pc = .sleep2 x k) := by
  cases he with
  | schedSwtch i pc => exact absurd rfl (h1 _ _)
  | iret p b => exact absurd rfl (h2 _ _)
  | sleep p c k =>
    refine ⟨fun h => ?_, nofun, nofun, nofun⟩
    cases h
    rfl
  | sleepAcquire p c k =>
    refine ⟨nofun, fun h => ?_, nofun, nofun⟩
    cases h
    exact ⟨rfl, p, rfl⟩
  | sleepRelease p c k =>
    refine ⟨nofun, nofun, fun h => ?_, nofun⟩
    cases h
    exact ⟨rfl, rfl⟩
  | sleepSet p c k =>
    refine ⟨nofun, nofun, nofun, fun h => ?_⟩
    cases h
    rfl
  | _ => exact ⟨nofun, nofun, nofun, nofun⟩

theorem of_swtchOut_asleep (he : Edge cfg o pc (.swtchOut q (.asleep x k) : Op n C K R) pc') :
    pc = .sleep3 x k := by
  cases he
  rfl

/-- Only `sleep` makes a process `SLEEPING`, and only the one that calls it. -/
theorem edit_sleeping (he : Edge cfg o pc (.edit q g f : Op n C K R) pc') (ho : o ≠ some q)
    (hs : (f c).state = .sleeping) : c.state = .sleeping := by
  cases he with
  | wakeBody o h y i =>
    unfold Sched.wakeBody at hs
    split at hs
    · cases hs
    · exact hs
  | killHit p pid i =>
    unfold Sched.killBody at hs
    split at hs
    · cases hs
    · exact hs
  | sleepSet p y k => exact absurd rfl ho
  | yieldSet | exitSet | forkFound | forkRunnable | schedRun => cases hs
  | _ => exact hs

/-- How the scan of `wakeup` goes on. -/
theorem of_scanned (he : Edge cfg o pc op pc') (h1 : ∀ p b, op ≠ .swtchIn p b)
    (h2 : ∀ p b, op ≠ .iret p b) {j : Fin n} (hs : pc'.Scanned x j) :
    (∀ k, op ≠ .release k) ∧ (∀ k, op ≠ .acquire k) ∧
      (pc.Scanned x j ∨ o = some j ∧ (∀ k, pc ≠ .sleep2 x k ∧ pc ≠ .sleep3 x k) ∨
        ∃ h g, pc = .wakeIn h x j ∧ op = .edit j g (Sched.wakeBody x)) := by
  cases he with
  | schedSwtch i pc => exact absurd rfl (h1 _ _)
  | iret p b => exact absurd rfl (h2 _ _)
  | wakeup o h c => exact absurd hs.2 (Nat.not_lt_zero _)
  | wakeSelf h c i =>
    refine ⟨nofun, nofun, ?_⟩
    obtain ⟨rfl, hs⟩ := hs
    rcases Nat.lt_succ_iff_lt_or_eq.mp hs with hlt | heq
    · exact .inl ⟨rfl, hlt⟩
    · obtain rfl : j = i := Fin.ext heq
      exact .inr (.inl ⟨rfl, fun _ => ⟨nofun, nofun⟩⟩)
  | wakeAcquire o h c i hi => exact ⟨nofun, nofun, .inl hs⟩
  | wakeBody o h c i =>
    refine ⟨nofun, nofun, ?_⟩
    obtain ⟨rfl, hs⟩ := hs
    rcases Nat.lt_or_eq_of_le hs with hlt | heq
    · exact .inl ⟨rfl, hlt⟩
    · obtain rfl : j = i := Fin.ext heq
      exact .inr (.inr ⟨h, _, rfl, rfl⟩)
  | wakeRelease o h c i =>
    exact ⟨nofun, nofun, .inl ⟨hs.1, Nat.lt_succ_iff.mp hs.2⟩⟩
  | _ => exact hs.elim

/-- A complete `wakeup` has looked at every slot. -/
theorem of_woken (he : Edge cfg o pc (.woken x : Op n C K R) pc') (j : Fin n) : pc.Scanned x j := by
  cases he with
  | wakeEnd o h c i hi => exact ⟨rfl, Nat.lt_of_lt_of_le j.isLt hi⟩

end Edge

/-- The positions of a process that is started, or that returns from an interrupt. -/
theorem PRec.Parked.not_sleep {c : PRec n C K R} (h : c.Parked) (hs : c.state = .running) (x : C)
    (k : K) (j : ℕ) : c.pc ≠ .sleep0 x k ∧ c.pc ≠ .sleep1 x k ∧ c.pc ≠ .sleep2 x k ∧
    c.pc ≠ .sleep3 x k ∧
      ¬ c.pc.Scanned x j := by
  have h := h.2
  rw [hs] at h
  cases hpc : c.pc with
  | forkret | yielded | asleep =>
    exact ⟨nofun, nofun, nofun, nofun, fun h => h⟩
  | _ =>
    rw [hpc] at h
    simp at h

theorem Pc.interruptible.not_sleep {b : Pc n C K} (h : b.interruptible) (x : C) (k : K) :
    b ≠ .sleep0 x k ∧ b ≠ .sleep1 x k ∧ b ≠ .sleep2 x k ∧ b ≠ .sleep3 x k := by
  refine ⟨?_, ?_, ?_, ?_⟩ <;> rintro rfl <;> exact h

/-- Process `p` is in a call `sleep(c, lk)`, past the point at which it is `SLEEPING`. -/
def State.InSleep (s : State n M C K R) (p : Fin n) (c : C) : Prop :=
  ∃ k, (∃ m, (s.cpu m).on = some p ∧ (s.cpu m).pc = .sleep3 c k) ∨
    s.Off p ∧ (s.proc p).pc = .asleep c k

variable {p : Fin n}

theorem Inv.inSleep {s : State n M C K R} (hI : Inv s)
    (hs : (s.proc p).state = .sleeping) : ∃ c, s.InSleep p c ∧ (s.proc p).chan = some c := by
  by_cases hoff : s.Off p
  · have hp := (hI.parked p hoff).2
    rw [hs] at hp
    cases hpc : (s.proc p).pc with
    | asleep c k =>
      rw [hpc] at hp
      exact ⟨c, ⟨k, .inr ⟨hoff, hpc⟩⟩, by simpa using hp⟩
    | _ =>
      rw [hpc] at hp
      simp at hp
  · obtain ⟨m, hon⟩ : ∃ m, (s.cpu m).on = some p := by
      by_contra hno
      exact hoff fun m h => hno ⟨m, h⟩
    have hst := hI.state m p hon
    rw [hs] at hst
    cases hpc : (s.cpu m).pc with
    | sleep3 c k => exact ⟨c, ⟨k, .inl ⟨m, hon, hpc⟩⟩, hI.chan m p c k hon hpc⟩
    | _ =>
      rw [hpc] at hst
      cases hst

theorem State.InSleep.committed {s : State n M C K R} {cfg : Cfg n C K}
    (h : s.InSleep p cfg.chan) (hs : (s.proc p).state = .sleeping) : s.Committed cfg p := by
  obtain ⟨k, ⟨m, hon, hpc⟩ | ⟨hoff, hpc⟩⟩ := h
  · exact .inl ⟨m, k, hon, .inr hpc⟩
  · exact .inr ⟨hoff, hs, k, hpc⟩

theorem awake_init {cfg : Cfg n C K} (r : R) (pid : ℤ) (cond : Bool) :
    Awake cfg (init cfg r pid cond : State n M C K R) := by
  have hno : ∀ p, ¬ (init cfg r pid cond : State n M C K R).Committed cfg p := by
    rintro p (⟨m, k, h, _⟩ | ⟨_, h, _⟩)
    · cases h
    · unfold init at h
      dsimp only at h
      split at h <;> cases h
  exact
    { test := fun m k h => h.elim nofun nofun
      due := fun p h => absurd h (hno p)
      woke := fun _ => hno
      scan := fun _ j _ _ => hno j
      held := fun h => h.elim nofun nofun }

/-! ## Steps -/

section Step

variable [DecidableEq M] [DecidableEq C] [DecidableEq K] {cfg : Cfg n C K} {s : State n M C K R}
  {m : M} {op : Op n C K R} {pc : Pc n C K}

theorem next_woken (cfg : Cfg n C K) (s : State n M C K R) (m : M) (pc : Pc n C K) (x : C) :
    ((Op.woken x).next cfg s m pc).lock = s.lock ∧ ((Op.woken x).next cfg s m pc).cond = s.cond ∧
      (x = cfg.chan ∧ s.lock cfg.lk = some m ∧ ((Op.woken x).next cfg s m pc).due = false ∧
          ((Op.woken x).next cfg s m pc).woke = true ∨
        ((Op.woken x).next cfg s m pc).due = s.due ∧
        ((Op.woken x).next cfg s m pc).woke = s.woke) := by
  show ((Op.woken x).apply cfg s m).lock = _ ∧ ((Op.woken x).apply cfg s m).cond = _ ∧
    (_ ∧ _ ∧ ((Op.woken x).apply cfg s m).due = _ ∧ ((Op.woken x).apply cfg s m).woke = _ ∨
      ((Op.woken x).apply cfg s m).due = _ ∧ ((Op.woken x).apply cfg s m).woke = _)
  unfold Op.apply
  dsimp only
  split
  · rename_i h
    exact ⟨rfl, rfl, .inl ⟨h.1, h.2, rfl, rfl⟩⟩
  · exact ⟨rfl, rfl, .inr ⟨rfl, rfl⟩⟩

theorem next_lock_eq (h1 : ∀ k, op ≠ .acquire k) (h2 : ∀ k, op ≠ .release k) :
    (op.next cfg s m pc).lock = s.lock := by
  cases op with
  | acquire k => exact absurd rfl (h1 k)
  | release k => exact absurd rfl (h2 k)
  | woken x => exact (next_woken cfg s m pc x).1
  | _ => rfl

/-- A lock that another CPU holds after a step was its own before. -/
theorem lk_of_next {m' : M} (hm : m' ≠ m) {k : K} (hl : (op.next cfg s m pc).lock k = some m') :
    s.lock k = some m' := by
  cases op with
  | acquire k' =>
    have hl : update s.lock k' (some m) k = some m' := hl
    by_cases hk : k = k'
    · rw [hk, update_self] at hl
      exact absurd (Option.some.inj hl).symm hm
    · rw [update_of_ne hk] at hl
      exact hl
  | release k' =>
    have hl : update s.lock k' none k = some m' := hl
    by_cases hk : k = k'
    · rw [hk, update_self] at hl
      cases hl
    · rw [update_of_ne hk] at hl
      exact hl
  | woken x =>
    rw [(next_woken cfg s m pc x).1] at hl
    exact hl
  | _ => exact hl

/-- The holder of a lock keeps it and the condition while others move. -/
theorem next_lk (pc : Pc n C K) {m' : M} (hen : op.Enabled cfg s m) (hm : m' ≠ m)
    (hl : s.lock cfg.lk = some m') :
    (op.next cfg s m pc).lock cfg.lk = some m' ∧ (op.next cfg s m pc).cond = s.cond := by
  have hne : s.lock cfg.lk ≠ some m := fun h => hm (Option.some.inj (hl.symm.trans h))
  cases op with
  | acquire k =>
    have hk : cfg.lk ≠ k := by
      rintro rfl
      exact nomatch hl.symm.trans hen
    refine ⟨?_, rfl⟩
    show update s.lock k (some m) cfg.lk = _
    rw [update_of_ne hk]
    exact hl
  | release k =>
    have hk : cfg.lk ≠ k := by
      rintro rfl
      exact hne hen.1
    refine ⟨?_, rfl⟩
    show update s.lock k none cfg.lk = _
    rw [update_of_ne hk]
    exact hl
  | change v => exact absurd hen hne
  | woken x =>
    obtain ⟨h1, h2, _⟩ := next_woken cfg s m pc x
    rw [h1]
    exact ⟨hl, h2⟩
  | _ => exact ⟨hl, rfl⟩

theorem sleeping_of_next (he : Edge cfg (s.cpu m).on (s.cpu m).pc op pc)
    (hoff : s.Off p) (hs : ((op.next cfg s m pc).proc p).state = .sleeping) :
    (s.proc p).state = .sleeping := by
  have ht := next_touch he (hoff m)
  generalize (op.next cfg s m pc).proc p = c at ht hs
  cases ht with
  | edit g f => exact he.edit_sleeping (hoff m) hs
  | free g => cases hs
  | none | alloc | copy => exact hs

/-- A process commits itself in `sleep`, by releasing the lock. -/
theorem next_committed (hI : Inv s) (he : Edge cfg (s.cpu m).on (s.cpu m).pc op pc)
    (hen : op.Enabled cfg s m) (hc : (op.next cfg s m pc).Committed cfg p) :
    s.Committed cfg p ∨ ∃ k, op = .release k ∧ (s.cpu m).pc = .sleep1 cfg.chan k := by
  rcases hc with ⟨m', k, hon, hpc⟩ | ⟨hoff, hst, k, hpc⟩
  · by_cases hm : m' = m
    · subst hm
      rw [next_pc] at hpc
      rcases next_on_cases he hon with ⟨hon', _⟩ | ⟨_, h1, h2, rfl⟩
      · by_cases hi : ∃ q b, op = .iret q b
        · obtain ⟨q, b, rfl⟩ := hi
          obtain ⟨_, _, rfl⟩ := he.of_iret
          obtain ⟨_, _, n2, n3⟩ := (hI.saved q pc hen.2).not_sleep cfg.chan k
          rcases hpc with h | h
          · exact absurd h n2
          · exact absurd h n3
        · have hsw : ∀ q b, op ≠ .swtchIn q b := by
            rintro q b rfl
            exact nomatch he.of_swtchIn.1.symm.trans hon'
          obtain ⟨_, _, e2, e3⟩ := he.of_sleep (x := cfg.chan) (k := k) hsw fun q b h =>
            hi ⟨q, b, h⟩
          rcases hpc with h | h
          · exact .inr ⟨k, (e2 h).2, (e2 h).1⟩
          · exact .inl (.inl ⟨m', k, hon', .inl (e3 h)⟩)
      · obtain ⟨hoff, hrun⟩ := hI.started m' p h1 (by rw [h2]; rfl)
        obtain ⟨_, _, n2, n3, _⟩ := (hI.parked p hoff).not_sleep hrun cfg.chan k 0
        have hpc' : (s.proc p).pc = pc := hen
        rw [hpc'] at n2 n3
        rcases hpc with h | h
        · exact absurd h n2
        · exact absurd h n3
    · rw [next_cpu_ne hm] at hon hpc
      exact .inl (.inl ⟨m', k, hon, hpc⟩)
  · refine .inl ?_
    rcases op.slot_cases p with ⟨g, rfl⟩ | ⟨r, rfl⟩ | ⟨h1, h2⟩
    · rw [next_free] at hst
      cases hst
    · rw [next_alloc] at hpc
      cases hpc
    · by_cases h3 : ∃ b, op = .swtchOut p b
      · obtain ⟨b, rfl⟩ := h3
        have hrec : ((Op.swtchOut p b).next cfg s m pc).proc p =
            { s.proc p with sp := (s.cpu m).stack, pc := b } := update_self _ _ _
        rw [hrec] at hpc
        obtain rfl : b = .asleep cfg.chan k := hpc
        exact .inl ⟨m, k, he.of_swtchOut.1, .inr he.of_swtchOut_asleep⟩
      · have e1 := ((next_record he p h1 h2).2.2.1 fun b h => h3 ⟨b, h⟩).1
        have hoff' := off_of_next he hoff fun b h => h3 ⟨b, h⟩
        exact .inr ⟨hoff', sleeping_of_next he hoff' hst, k, e1 ▸ hpc⟩

/-- A wakeup loop that finds a process of the channel leaves it runnable. -/
theorem wakeBody_not_committed (hI : Inv s) {j : Fin n} {h : Bool} {g : PRec n C K R → Prop}
    (he : Edge cfg (s.cpu m).on (s.cpu m).pc (.edit j g (wakeBody cfg.chan)) pc)
    (hpc : (s.cpu m).pc = .wakeIn h cfg.chan j) :
    ¬ ((Op.edit j g (wakeBody cfg.chan)).next cfg s m pc).Committed cfg j := by
  have hl : (s.cpu m).pc.lock (s.cpu m).on = some j := by rw [hpc]; rfl
  have hrec : ((Op.edit j g (wakeBody cfg.chan)).next cfg s m pc).proc j =
      wakeBody cfg.chan (s.proc j) := update_self _ _ _
  rintro (⟨m', k, hon, hp⟩ | ⟨hoff, hst, k, hp⟩)
  · -- it would hold the lock that the loop holds
    have hst : (Op.edit j g (wakeBody cfg.chan)).Stays := trivial
    rw [next_on_eq hst] at hon
    by_cases hm : m' = m
    · subst hm
      rw [next_pc] at hp
      obtain ⟨_, _, e2, e3⟩ := he.of_sleep (x := cfg.chan) (k := k) nofun nofun
      rcases hp with hp | hp
      · exact nomatch hpc.symm.trans (e2 hp).1
      · exact nomatch hpc.symm.trans (e3 hp)
    · rw [next_cpu_ne hm] at hp
      have hl' : (s.cpu m').pc.lock (s.cpu m').on = some j := by
        rcases hp with hp | hp <;> rw [hp, hon] <;> rfl
      exact hm (hI.lock_unique hl' hl)
  · have hoff' := off_of_next he hoff nofun
    rw [hrec] at hst hp
    have hpark := (hI.parked j hoff').2
    have e1 := (he.edit_frame (s.proc j)).1
    rw [e1] at hp
    rw [hp] at hpark
    unfold wakeBody at hst
    split at hst
    · cases hst
    · rename_i hno
      simp only [hst] at hpark
      exact hno ⟨hst, by simpa using hpark⟩

section

variable (hI : Inv s) (hA : Awake cfg s) (he : Edge cfg (s.cpu m).on (s.cpu m).pc op pc)
  (hen : op.Enabled cfg s m)

include hI hA he hen

theorem next_test (m' : M) (k : K) (hpc : ((op.next cfg s m pc).cpu m').pc = .sleep0 cfg.chan k ∨
      ((op.next cfg s m pc).cpu m').pc = .sleep1 cfg.chan k) :
    k = cfg.lk ∧ (op.next cfg s m pc).lock cfg.lk = some m' ∧
    (op.next cfg s m pc).cond = false := by
  by_cases hm : m' = m
  · subst hm
    rw [next_pc] at hpc
    by_cases hi : ∃ q b, op = .iret q b
    · obtain ⟨q, b, rfl⟩ := hi
      obtain ⟨_, _, rfl⟩ := he.of_iret
      obtain ⟨n0, n1, _⟩ := (hI.saved q pc hen.2).not_sleep cfg.chan k
      rcases hpc with h | h
      · exact absurd h n0
      · exact absurd h n1
    · by_cases hsw : ∃ q b, op = .swtchIn q b
      · obtain ⟨q, b, rfl⟩ := hsw
        obtain ⟨h1, h2, rfl⟩ := he.of_swtchIn
        obtain ⟨hoff, hrun⟩ := hI.started m' q h1 (by rw [h2]; rfl)
        obtain ⟨n0, n1, _⟩ := (hI.parked q hoff).not_sleep hrun cfg.chan k 0
        have hpc' : (s.proc q).pc = pc := hen
        rw [hpc'] at n0 n1
        rcases hpc with h | h
        · exact absurd h n0
        · exact absurd h n1
      · obtain ⟨e0, e1, _⟩ := he.of_sleep (x := cfg.chan) (k := k) (fun q b h => hsw ⟨q, b, h⟩)
          fun q b h => hi ⟨q, b, h⟩
        rcases hpc with h | h
        · obtain rfl := e0 h
          obtain ⟨h1, h2⟩ := hen.2 rfl
          exact ⟨h1, h1 ▸ hen.1, h2⟩
        · obtain ⟨h0, p, rfl⟩ := e1 h
          exact hA.test m' k (.inl h0)
  · rw [next_cpu_ne hm] at hpc
    obtain ⟨h1, h2, h3⟩ := hA.test m' k hpc
    obtain ⟨e1, e2⟩ := next_lk pc hen hm h2
    exact ⟨h1, e1, e2.trans h3⟩

theorem next_due (p : Fin n) (hc : (op.next cfg s m pc).Committed cfg p)
    (ht : (op.next cfg s m pc).cond = true) : (op.next cfg s m pc).due = true := by
  rcases next_committed hI he hen hc with hc0 | ⟨k, rfl, hpc⟩
  · cases op with
    | change v =>
      obtain rfl : v = true := ht
      show (s.due || (!s.cond && !s.woke)) = true
      have hw : s.woke = false := by
        cases hw : s.woke with
        | false => rfl
        | true => exact absurd hc0 (hA.woke hw p)
      cases hcond : s.cond with
      | false => rw [hw]; simp
      | true => rw [hA.due p hc0 hcond]; rfl
    | woken x =>
      obtain ⟨_, h2, ⟨rfl, hl, _⟩ | ⟨h3, _⟩⟩ := next_woken cfg s m pc x
      · exact absurd hc0 (hA.scan m p hl (he.of_woken p))
      · rw [h3]
        exact hA.due p hc0 (h2 ▸ ht)
    | _ => exact hA.due p hc0 ht
  · obtain ⟨_, _, h3⟩ := hA.test m k (.inr hpc)
    exact nomatch h3.symm.trans ht

theorem next_woke (hw : (op.next cfg s m pc).woke = true) (p : Fin n) :
    ¬ (op.next cfg s m pc).Committed cfg p := by
  intro hc
  rcases next_committed hI he hen hc with hc0 | ⟨k, rfl, hpc⟩
  · cases op with
    | acquire k | release k =>
      have hw : (if k = cfg.lk then false else s.woke) = true := hw
      split at hw
      · cases hw
      · exact hA.woke hw p hc0
    | woken x =>
      obtain ⟨_, _, ⟨rfl, hl, _⟩ | ⟨_, h4⟩⟩ := next_woken cfg s m pc x
      · exact hA.scan m p hl (he.of_woken p) hc0
      · exact hA.woke (h4 ▸ hw) p hc0
    | _ => exact hA.woke hw p hc0
  · obtain ⟨rfl, _⟩ := hA.test m k (.inr hpc)
    have hw : (if cfg.lk = cfg.lk then false else s.woke) = true := hw
    rw [if_pos rfl] at hw
    cases hw

end

theorem next_held (hA : Awake cfg s) (hen : op.Enabled cfg s m)
    (h : (op.next cfg s m pc).due = true ∨ (op.next cfg s m pc).woke = true) :
    ∃ m', (op.next cfg s m pc).lock cfg.lk = some m' := by
  cases op with
  | acquire k =>
    by_cases hk : cfg.lk = k
    · refine ⟨m, ?_⟩
      show update s.lock k (some m) cfg.lk = _
      rw [hk, update_self]
    · show ∃ m', update s.lock k (some m) cfg.lk = _
      rw [update_of_ne hk]
      have h : s.due = true ∨ (if k = cfg.lk then false else s.woke) = true := h
      rw [if_neg (Ne.symm hk)] at h
      exact hA.held h
  | release k =>
    have h : s.due = true ∨ (if k = cfg.lk then false else s.woke) = true := h
    by_cases hk : cfg.lk = k
    · rw [if_pos hk.symm] at h
      rcases h with h | h
      · exact nomatch h.symm.trans (hen.2 hk.symm)
      · cases h
    · show ∃ m', update s.lock k none cfg.lk = _
      rw [update_of_ne hk]
      rw [if_neg (Ne.symm hk)] at h
      exact hA.held h
  | change v => exact ⟨m, hen⟩
  | woken x =>
    obtain ⟨h1, _, ⟨_, hl, _⟩ | ⟨h3, h4⟩⟩ := next_woken cfg s m pc x
    · rw [h1]
      exact ⟨m, hl⟩
    · rw [h1]
      rw [h3, h4] at h
      exact hA.held h
  | _ => exact hA.held h

theorem next_scan (hI : Inv s) (hA : Awake cfg s) (he : Edge cfg (s.cpu m).on (s.cpu m).pc op pc)
    (hen : op.Enabled cfg s m) (m' : M) (j : Fin n)
    (hl : (op.next cfg s m pc).lock cfg.lk = some m')
    (hs : ((op.next cfg s m pc).cpu m').pc.Scanned cfg.chan j) :
    ¬ (op.next cfg s m pc).Committed cfg j := by
  intro hc
  by_cases hm : m' = m
  · subst hm
    rw [next_pc] at hs
    by_cases hi : ∃ q b, op = .iret q b
    · -- who returns from an interrupt holds no lock
      obtain ⟨q, b, rfl⟩ := hi
      exact hen.1 cfg.lk hl
    · by_cases hsw : ∃ q b, op = .swtchIn q b
      · obtain ⟨q, b, rfl⟩ := hsw
        obtain ⟨h1, h2, rfl⟩ := he.of_swtchIn
        obtain ⟨hoff, hrun⟩ := hI.started m' q h1 (by rw [h2]; rfl)
        have hn := ((hI.parked q hoff).not_sleep hrun cfg.chan cfg.lk j).2.2.2.2
        have hpc : (s.proc q).pc = pc := hen
        rw [hpc] at hn
        exact hn hs
      · obtain ⟨hrel, hacq, hcases⟩ := he.of_scanned (fun q b h => hsw ⟨q, b, h⟩)
          (fun q b h => hi ⟨q, b, h⟩) hs
        have hc0 : s.Committed cfg j := (next_committed hI he hen hc).resolve_right fun ⟨k, h, _⟩ =>
          hrel k h
        rcases hcases with hs' | ⟨hon, hpc⟩ | ⟨h, g, hpc, rfl⟩
        · rw [next_lock_eq hacq hrel] at hl
          exact hA.scan m' j hl hs' hc0
        · -- the process that calls `wakeup` does not sleep
          rcases hc0 with ⟨m1, k, hon1, hp⟩ | ⟨hoff, _⟩
          · obtain rfl := hI.one m1 m' j hon1 hon
            rcases hp with hp | hp
            · exact (hpc k).1 hp
            · exact (hpc k).2 hp
          · exact hoff m' hon
        · exact wakeBody_not_committed hI he hpc hc
  · rw [next_cpu_ne hm] at hs
    have hl0 := lk_of_next hm hl
    rcases next_committed hI he hen hc with hc0 | ⟨k, rfl, hpc⟩
    · exact hA.scan m' j hl0 hs hc0
    · exact hm (Option.some.inj (hl0.symm.trans (hA.test m k (.inr hpc)).2.1))

theorem awake_step (hI : Inv s) (hA : Awake cfg s) {l : M × Option (Fin n)} {s' : State n M C K R}
    (h : Step cfg s l s') : Awake cfg s' := by
  obtain ⟨op, pc, he, hen, _, rfl⟩ := h
  exact
    { test := next_test hI hA he hen
      due := next_due hI hA he hen
      woke := next_woke hI hA he hen
      scan := next_scan hI hA he hen
      held := next_held hA hen }

theorem awake_run {r : R} {pid : ℤ} {cond : Bool} {ls : List (M × Option (Fin n))}
    (h : Run (Step cfg) (init cfg r pid cond) ls s) : Inv s ∧ Awake cfg s :=
  h.inv_state (I := fun s => Inv s ∧ Awake cfg s) ⟨inv_init r pid cond, awake_init r pid cond⟩
    fun _ _ _ hI hs => ⟨inv_step hI.1 hs, awake_step hI.1 hI.2 hs⟩

/-- **No lost wakeups.** In no state of a run does a process sleep on the channel although the
    condition holds and its lock is free: a waker between its update and its `wakeup` holds the
    lock. A `SLEEPING` process is in a call of `sleep`, and on the channel of that call. -/
theorem no_lost_wakeup (cfg : Cfg n C K) (r : R) (pid : ℤ) (cond : Bool)
    (ls : List (M × Option (Fin n))) (s : State n M C K R)
    (h : Run (Step cfg) (init cfg r pid cond) ls s) :
    ¬ (s.cond = true ∧ s.lock cfg.lk = none ∧
      ∃ p, (s.proc p).state = .sleeping ∧ (s.proc p).chan = some cfg.chan) ∧
    ∀ p, (s.proc p).state = .sleeping → ∃ c, s.InSleep p c ∧ (s.proc p).chan = some c := by
  obtain ⟨hI, hA⟩ := awake_run h
  refine ⟨?_, fun p => hI.inSleep⟩
  rintro ⟨hcond, hfree, p, hs, hch⟩
  obtain ⟨c, hin, hc⟩ := hI.inSleep hs
  obtain rfl : c = cfg.chan := Option.some.inj (hc.symm.trans hch)
  obtain ⟨m, hm⟩ := hA.held (.inl (hA.due p (hin.committed hs) hcond))
  exact nomatch hfree.symm.trans hm

end Step

/-- The first process sleeps; an interrupt handler makes the condition true and wakes it. -/
theorem no_lost_wakeup_handler :
    ∃ (ls ls' : List (Unit × Option (Fin 1))) (s s' : State 1 Unit Unit Bool Unit),
      Run (Step ⟨(), true, false, 0⟩) (init ⟨(), true, false, 0⟩ () 1 false) ls s ∧
        Run (Step ⟨(), true, false, 0⟩) (init ⟨(), true, false, 0⟩ () 1 false) ls' s' ∧
        ((s.proc 0).state = .sleeping ∧ ∃ c, s.InSleep 0 c ∧ (s.proc 0).chan = some c) ∧
        s'.cond = true ∧ s'.lock true = none ∧
        ¬ ((s'.proc 0).state = .sleeping ∧ (s'.proc 0).chan = some ()) := by
  have h0 : Run (Step ⟨(), true, false, 0⟩) (init ⟨(), true, false, 0⟩ () 1 false) []
      (init ⟨(), true, false, 0⟩ () 1 false : State 1 Unit Unit Bool Unit) := .nil
  have h1 := run_next h0 () _ _ (.schedAcquire 0) rfl
  have h2 := run_next h1 () _ _ (.schedRun 0) rfl
  have h3 := run_next h2 () _ _ (.schedLoad 0 ()) rfl
  have h4 := run_next h3 () _ _ (.schedSwtch 0 .forkret) rfl
  have h5 := run_next h4 () _ _ (.forkret 0) rfl
  have h6 := run_next h5 () _ _ (.acquire (some 0) false true) rfl
  have h7 := run_next h6 () _ _ (.sleep 0 () true) ⟨rfl, fun _ => ⟨rfl, rfl⟩⟩
  have h8 := run_next h7 () _ _ (.sleepAcquire 0 () true) rfl
  have h9 := run_next h8 () _ _ (.sleepRelease 0 () true) ⟨rfl, fun _ => rfl⟩
  have h10 := run_next h9 () _ _ (.sleepSet 0 () true) trivial
  have h11 := run_next h10 () _ _ (.sleepSched 0 () true) (fun k h => by cases k <;> cases h)
  have h12 := run_next h11 () _ _ (.schedBack 0) trivial
  have h13 := run_next h12 () _ _ (.schedRelease 0) rfl
  have h14 := run_next h13 () _ _ (.schedWrap 1 (le_refl 1)) trivial
  have h15 := run_next h14 () _ _ .schedIntr trivial
  have h16 := run_next h15 () _ _ (.acquire none true true) rfl
  have h17 := run_next h16 () _ _ (.change none true true) rfl
  have h18 := run_next h17 () _ _ (.wakeup none true ()) trivial
  have h19 := run_next h18 () _ _ (.wakeAcquire none true () 0 (fun h => nomatch h)) rfl
  have h20 := run_next h19 () _ _ (.wakeBody none true () 0) trivial
  have h21 := run_next h20 () _ _ (.wakeRelease none true () 0) rfl
  have h22 := run_next h21 () _ _ (.wakeEnd none true () 1 (le_refl 1)) trivial
  have h23 := run_next h22 () _ _ (.release none true true) ⟨rfl, fun _ => rfl⟩
  refine ⟨_, _, _, _, h14, h23, ⟨rfl, (no_lost_wakeup _ _ _ _ _ _ h14).2 0 rfl⟩, rfl, rfl, fun h =>
    ?_⟩
  exact (no_lost_wakeup _ _ _ _ _ _ h23).1 ⟨rfl, rfl, 0, h⟩

end Xv6.Sched
