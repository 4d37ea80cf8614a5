/-
  What every CPU and every process is doing.

  `Inv` ties the state to the positions of the CPUs: who holds which process lock, the state of
  the processes being executed, and what the others wait for. A process is executed by at most
  one CPU, and a slot that a fork has claimed stays as it is until the fork goes on.
-/
import Xv6.Sched.Effect

namespace Xv6.Sched

open Lib Process Function Option

variable {n : ℕ} {M C K R : Type}

/-- The positions of process `p`: the one it executes, and the one that an interrupt handler
    returns to. -/
def State.Frame (s : State n M C K R) (p : Fin n) (f : Pc n C K) : Prop :=
  (∃ m, (s.cpu m).on = some p ∧ (s.cpu m).pc = f) ∨ (s.proc p).saved = some f

/-- No CPU executes process `p`. -/
def State.Off (s : State n M C K R) (p : Fin n) : Prop := ∀ m, (s.cpu m).on ≠ some p

structure Inv (s : State n M C K R) : Prop where
  lock : ∀ m q, s.plock q = some m ↔ (s.cpu m).pc.lock (s.cpu m).on = some q
  one : ∀ m m' p, (s.cpu m).on = some p → (s.cpu m').on = some p → m = m'
  fits : ∀ m, (s.cpu m).pc.Fits (s.cpu m).on
  state : ∀ m p, (s.cpu m).on = some p → (s.proc p).state = (s.cpu m).pc.state
  handler : ∀ m p, (s.cpu m).on = some p → (s.cpu m).pc.handler = (s.proc p).saved.isSome
  chan : ∀ m p c k, (s.cpu m).on = some p → (s.cpu m).pc = .sleep3 c k →
    (s.proc p).chan = some c
  saved : ∀ p b, (s.proc p).saved = some b → b.interruptible
  parked : ∀ p, s.Off p → (s.proc p).Parked
  started : ∀ m i, (s.cpu m).on = none → (s.cpu m).pc.starts i →
    s.Off i ∧ (s.proc i).state = .running
  child : ∀ p f i, s.Frame p f → f.child = some i →
    (s.proc i).state = .used ∧ s.Off i ∧ (s.proc i).pc = f.childPc
  excl : ∀ p f p' f' i, s.Frame p f → s.Frame p' f' → f.child = some i → f'.child = some i →
    p = p' ∧ f = f'

section

variable {s : State n M C K R} {m m' : M} {p : Fin n}

variable {g : PRec n C K R → Prop} {q : Fin n}

/-- A CPU that has a process lock is the only one. -/
theorem Inv.lock_unique (hI : Inv s) {m m' : M}
    (h : (s.cpu m).pc.lock (s.cpu m).on = some q) (h' : (s.cpu m').pc.lock (s.cpu m').on = some q) :
    m = m' :=
  some.inj (((hI.lock m q).mpr h).symm.trans ((hI.lock m' q).mpr h'))

/-- The slot that a fork fills is not the process that forks. -/
theorem Inv.child_ne (hI : Inv s) {p : Fin n} (hp : (s.cpu m).on = some p) :
    (s.cpu m).pc.child ≠ some p := fun h =>
  (hI.child p _ p (.inl ⟨m, hp, rfl⟩) h).2.1 m hp

/-- What a scheduler that is about to switch finds. -/
theorem Inv.resumes (hI : Inv s) {i : Fin n} (hon : (s.cpu m).on = none)
    (hpc : (s.cpu m).pc.starts i) :
    s.Off i ∧ (s.proc i).state = .running ∧ (s.proc i).pc.lock (some i) = some i ∧
      (s.proc i).pc.Fits (some i) ∧ (s.proc i).pc.state = .running ∧ (s.proc i).pc.child = none ∧
      (∀ x k, (s.proc i).pc ≠ .sleep3 x k) ∧ (s.proc i).pc.handler = (s.proc i).saved.isSome := by
  obtain ⟨hoff, hrun⟩ := hI.started m i hon hpc
  have hp := hI.parked i hoff
  obtain ⟨h1, h2, h3, h4, h5⟩ := hp.resumes hrun i
  exact ⟨hoff, hrun, h1, h2, h3, h4, h5, hp.1⟩

/-- The slot that the fork on a CPU fills. -/
theorem Inv.of_child (hI : Inv s) {i : Fin n} (hc : (s.cpu m).pc.child = some i) :
    (∃ p, (s.cpu m).on = some p) ∧ (s.proc i).state = .used ∧ s.Off i ∧
      (s.proc i).pc = (s.cpu m).pc.childPc := by
  cases hp : (s.cpu m).on with
  | none =>
    have hf := hI.fits m
    rw [hp] at hf
    revert hc hf
    cases (s.cpu m).pc <;> simp [Pc.child, Pc.Fits]
  | some p => exact ⟨⟨p, rfl⟩, hI.child p _ i (.inl ⟨m, hp, rfl⟩) hc⟩

/-- A process that is not running, though a CPU executes it, is locked by that CPU. -/
theorem Inv.locks (hI : Inv s) (hon : (s.cpu m').on = some p) (hs : (s.proc p).state ≠ .running) :
    (s.cpu m').pc.lock (s.cpu m').on = some p := by
  rw [hI.state m' p hon] at hs
  rw [hon]
  exact Pc.lock_of_state hs p

theorem inv_init {cfg : Cfg n C K} (r : R) (pid : ℤ) (cond : Bool) :
    Inv (init cfg r pid cond : State n M C K R) where
  lock := fun _ _ => ⟨nofun, nofun⟩
  one := nofun
  fits := fun _ => trivial
  state := nofun
  handler := nofun
  chan := nofun
  saved := by
    intro p b h
    unfold init at h
    dsimp only at h
    split at h <;> cases h
  parked := by
    intro p _
    unfold init
    dsimp only
    split
    · exact ⟨rfl, .inr (.inl rfl)⟩
    · exact ⟨rfl, .inl rfl⟩
  started := fun _ _ _ h => h.elim
  child := by
    rintro p f i (⟨m, h, _⟩ | h)
    · cases h
    · unfold init at h
      dsimp only at h
      split at h <;> cases h
  excl := by
    rintro p f p' f' i (⟨m, h, _⟩ | h)
    · cases h
    · unfold init at h
      dsimp only at h
      split at h <;> cases h

variable [DecidableEq C] {cfg : Cfg n C K} {pc : Pc n C K}

/-- A critical section leaves the state of a process that runs on another CPU. -/
theorem Inv.edit_other (hI : Inv s) {f : PRec n C K R → PRec n C K R}
    (he : Edge cfg (s.cpu m).on (s.cpu m).pc (.edit q g f) pc) (hg : g (s.proc q)) (hm : m' ≠ m)
    (hon : (s.cpu m').on = some q) : (f (s.proc q)).state = (s.proc q).state := by
  have ho : (s.cpu m).on ≠ some q := fun h => hm (hI.one m' m q hon h)
  by_cases hrun : (s.proc q).state = .running
  · rw [he.edit_running hg ho hrun fun h => (hI.of_child h).2.2.1 m' hon, hrun]
  · exact he.edit_unlocked _ fun h => hm (hI.lock_unique (hI.locks hon hrun) h)

/-- Nobody executes a process that is freed. -/
theorem Inv.free_off (hI : Inv s)
    (he : Edge cfg (s.cpu m).on (s.cpu m).pc (.free q g) pc) (hg : g (s.proc q)) : s.Off q := by
  obtain ⟨_, hl, hrun, _, hc | hz⟩ := he.of_free
  · exact (hI.of_child hc).2.2.1
  · intro m' hon
    obtain rfl := hI.lock_unique hl (hI.locks hon (by rw [hz _ hg]; exact nofun))
    have hs := hI.state m q hon
    rw [hz _ hg, hrun] at hs
    cases hs

/-- A slot that is freed waits for its next process. -/
theorem Inv.free_parked (hI : Inv s)
    (he : Edge cfg (s.cpu m).on (s.cpu m).pc (.free q g) pc) (hg : g (s.proc q)) :
    (freeproc (s.proc q)).Parked := by
  obtain ⟨hh, hp⟩ := hI.parked q (hI.free_off he hg)
  have hnone : (s.proc q).saved.isSome = false := by
    obtain ⟨_, _, _, _, hc | hz⟩ := he.of_free
    · rw [← hh, (hI.of_child hc).2.2.2]
      cases (s.cpu m).pc <;> rfl
    · rw [← hh]
      rw [hz _ hg] at hp
      cases hpc : (s.proc q).pc with
      | dead => rfl
      | _ =>
        rw [hpc] at hp
        simp at hp
  exact ⟨hnone.symm, .inl rfl⟩

end

/-! ## Steps -/

section Step

variable [DecidableEq M] [DecidableEq C] [DecidableEq K] {cfg : Cfg n C K} {s : State n M C K R}
  {m : M} {op : Op n C K R} {pc : Pc n C K}

/-- What an operation makes of the record of a process that its CPU does not execute. -/
inductive Touch (s : State n M C K R) (p : Fin n) : Op n C K R → PRec n C K R → Prop
  | none {op : Op n C K R} (h : op.target ≠ some p) : Touch s p op (s.proc p)
  | edit (g f) : Touch s p (.edit p g f) (f (s.proc p))
  | free (g) : Touch s p (.free p g) (freeproc (s.proc p))
  | alloc (r) : Touch s p (.alloc p r) (allocproc p r (s.proc p))
  | copy (p') : Touch s p (.copy p' p) { s.proc p with tf := (s.proc p').tf }

section

variable (he : Edge cfg (s.cpu m).on (s.cpu m).pc op pc)

include he

variable {p i : Fin n}

theorem next_touch (ho : (s.cpu m).on ≠ some p) : Touch s p op ((op.next cfg s m pc).proc p) := by
  have hw : Wrote s m p op ((op.next cfg s m pc).proc p) := next_wrote p
  generalize (op.next cfg s m pc).proc p = c at hw ⊢
  cases hw with
  | none h => exact .none h
  | edit g f => exact .edit g f
  | free g => exact .free g
  | alloc r => exact .alloc r
  | copy p' => exact .copy p'
  | swtchOut b => exact absurd he.of_swtchOut.1 ho
  | prepareReturn => exact absurd he.of_prepareReturn.1 ho
  | intr b => exact absurd he.of_intr.1 ho
  | iret b => exact absurd he.of_iret.1 ho

/-- Interrupts and their returns write the saved position, nothing else does. -/
theorem next_saved_cases (p : Fin n) : ((op.next cfg s m pc).proc p).saved = (s.proc p).saved ∨
      ((op.next cfg s m pc).proc p).saved = none ∨
      ∃ b, op = .intr p b ∧ ((op.next cfg s m pc).proc p).saved = some b := by
  have hw : Wrote s m p op ((op.next cfg s m pc).proc p) := next_wrote p
  generalize (op.next cfg s m pc).proc p = c at hw ⊢
  cases hw with
  | edit g f => exact .inl (he.edit_frame _).2.1
  | alloc | iret => exact .inr (.inl rfl)
  | intr b => exact .inr (.inr ⟨b, rfl, rfl⟩)
  | _ => exact .inl rfl

/-- The fork's own slot, while it keeps it. -/
theorem next_mine (hoff : s.Off i) (hc : (s.cpu m).pc.child = some i) (hc' : pc.child = some i) :
    ((op.next cfg s m pc).proc i).state = (s.proc i).state ∧
      ((∀ q r, op ≠ .alloc q r) → ((op.next cfg s m pc).proc i).pc = (s.proc i).pc) ∧
      (∀ q r, op = .alloc q r → ((op.next cfg s m pc).proc i).pc = pc.childPc) := by
  have ht := next_touch he (hoff m)
  generalize (op.next cfg s m pc).proc i = c at ht ⊢
  cases ht with
  | none ht =>
    refine ⟨rfl, fun _ => rfl, ?_⟩
    rintro q r rfl
    rw [he.of_alloc.2.1] at hc
    exact absurd hc ht
  | edit g f => exact ⟨he.edit_child hc hc' _, fun _ => (he.edit_frame _).1, nofun⟩
  | free g =>
    rw [he.of_free.2.2.2.1] at hc'
    cases hc'
  | alloc r =>
    rw [he.of_alloc.2.2]
    exact ⟨rfl, fun h => absurd rfl (h _ _), fun _ _ _ => rfl⟩
  | copy p => exact ⟨rfl, fun _ => rfl, nofun⟩

end

variable (hI : Inv s) (he : Edge cfg (s.cpu m).on (s.cpu m).pc op pc) (hen : op.Enabled cfg s m)

include hI he hen

theorem next_lock (m' : M) (q : Fin n) : (op.next cfg s m pc).plock q = some m' ↔
      ((op.next cfg s m pc).cpu m').pc.lock ((op.next cfg s m pc).cpu m').on = some q := by
  -- every operation but `acquire` and `release` of a process lock keeps what CPU `m` holds
  have hkeep : (op.next cfg s m pc).plock = s.plock →
      pc.lock (op.on (s.cpu m).on) = (s.cpu m).pc.lock (s.cpu m).on →
      ((op.next cfg s m pc).plock q = some m' ↔
        ((op.next cfg s m pc).cpu m').pc.lock ((op.next cfg s m pc).cpu m').on = some q) := by
    intro h1 h2
    rw [h1, hI.lock]
    by_cases hm : m' = m
    · subst hm
      rw [next_pc, next_on, h2]
    · rw [next_cpu_ne hm]
  -- these two change the holder of one lock
  have hset : ∀ {r o l}, (op.next cfg s m pc).plock = update s.plock r o →
    pc.lock (op.on (s.cpu m).on) = l →
      (∀ q, q ≠ r → (l = some q ↔ (s.cpu m).pc.lock (s.cpu m).on = some q)) →
      (o = some m ↔ l = some r) → (∀ m', m' ≠ m → o ≠ some m' ∧ s.plock r ≠ some m') →
      ((op.next cfg s m pc).plock q = some m' ↔
        ((op.next cfg s m pc).cpu m').pc.lock ((op.next cfg s m pc).cpu m').on = some q) := by
    intro r o l h1 h2 h3 h4 h5
    rw [h1]
    by_cases hm : m' = m
    · subst hm
      rw [next_pc, next_on, h2]
      by_cases hq : q = r
      · subst hq
        rw [update_self, h4]
      · rw [update_of_ne hq, hI.lock, h3 q hq]
    · rw [next_cpu_ne hm]
      by_cases hq : q = r
      · subst hq
        rw [update_self, ← hI.lock]
        exact iff_of_false (h5 m' hm).1 (h5 m' hm).2
      · rw [update_of_ne hq, hI.lock]
  cases op with
  | lock r =>
    obtain ⟨h1, h2⟩ := he.lock_of_lock
    have hfree : s.plock r = none := hen
    exact hset rfl h2 (fun q hq => by simp [h1, Ne.symm hq]) (by simp) fun m' hm =>
      ⟨fun h => hm (some.inj h).symm, by simp [hfree]⟩
  | unlock r =>
    obtain ⟨h1, h2⟩ := he.lock_of_unlock
    have hheld := (hI.lock m r).mpr h1
    exact hset rfl h2 (fun q hq => by simp [h1, Ne.symm hq]) (by simp) fun m' hm =>
      ⟨nofun, by simp [hheld, Ne.symm hm]⟩
  | swtchOut p b =>
    obtain ⟨_, rfl, h3, _⟩ := he.of_swtchOut
    exact hkeep rfl h3.symm
  | swtchIn p b =>
    obtain ⟨h1, h2, rfl⟩ := he.of_swtchIn
    have hb : (s.proc p).pc = pc := hen
    have hr := (hI.resumes (i := p) h1 (by rw [h2]; rfl)).2.2.1
    refine hkeep rfl ?_
    rw [h2, ← hb]
    exact hr
  | intr p b =>
    obtain ⟨h1, h2, h3, rfl⟩ := he.of_intr
    refine hkeep rfl ?_
    rw [h2, h3.lock]
    rfl
  | iret p b =>
    obtain ⟨h1, h2, rfl⟩ := he.of_iret
    have hb := hI.saved p pc hen.2
    refine hkeep rfl ?_
    rw [h2, hb.lock]
    rfl
  | _ =>
    exact hkeep (next_plock (fun _ h => nomatch h) (fun _ h => nomatch h))
      (he.lock_of_plain trivial)

omit hen in
theorem next_one (m1 m2 : M) (p : Fin n) (h1 : ((op.next cfg s m pc).cpu m1).on = some p)
    (h2 : ((op.next cfg s m pc).cpu m2).on = some p) : m1 = m2 := by
  have hstay : op.Stays → ∀ m', ((op.next cfg s m pc).cpu m').on = (s.cpu m').on := next_on_eq
  cases op with
  | swtchOut q b =>
    have hne : ∀ m', ((Op.next cfg s m (.swtchOut q b) pc).cpu m').on = some p → m' ≠ m := by
      rintro m' h rfl
      rw [next_on] at h
      cases h
    rw [next_cpu_ne (hne _ h1)] at h1
    rw [next_cpu_ne (hne _ h2)] at h2
    exact hI.one m1 m2 p h1 h2
  | swtchIn q b =>
    obtain ⟨h3, h4, rfl⟩ := he.of_swtchIn
    have hoff := (hI.resumes (i := q) h3 (by rw [h4]; rfl)).1
    have hon : ((Op.next cfg s m (.swtchIn q pc) pc).cpu m).on = some q := next_on
    by_cases hm1 : m1 = m <;> by_cases hm2 : m2 = m
    · rw [hm1, hm2]
    · rw [hm1, hon] at h1
      rw [next_cpu_ne hm2, ← h1] at h2
      exact absurd h2 (hoff m2)
    · rw [hm2, hon] at h2
      rw [next_cpu_ne hm1, ← h2] at h1
      exact absurd h1 (hoff m1)
    · rw [next_cpu_ne hm1] at h1
      rw [next_cpu_ne hm2] at h2
      exact hI.one m1 m2 p h1 h2
  | _ =>
    rw [hstay trivial] at h1 h2
    exact hI.one m1 m2 p h1 h2

theorem next_fits (m' : M) :
    ((op.next cfg s m pc).cpu m').pc.Fits ((op.next cfg s m pc).cpu m').on := by
  by_cases hm : m' = m
  · subst hm
    rw [next_pc, next_on]
    cases op with
    | swtchOut p b =>
      obtain ⟨_, rfl, _⟩ := he.of_swtchOut
      trivial
    | swtchIn p b =>
      obtain ⟨h1, h2, rfl⟩ := he.of_swtchIn
      have hb : (s.proc p).pc = pc := hen
      rw [← hb]
      exact (hI.resumes (i := p) h1 (by rw [h2]; rfl)).2.2.2.1
    | iret p b =>
      obtain ⟨h1, _, rfl⟩ := he.of_iret
      show pc.Fits (s.cpu m').on
      rw [h1]
      exact (hI.saved p pc hen.2).fits p
    | _ =>
      exact he.fits (hI.fits m') nofun nofun nofun
  · rw [next_cpu_ne hm]
    exact hI.fits m'

/-- A step of another CPU leaves the record of a process that is executed, but for `parent` and
    `killed`. -/
theorem next_other {m' : M} (hm : m' ≠ m) (hon : (s.cpu m').on = some p) :
    ((op.next cfg s m pc).proc p).state = (s.proc p).state ∧
      ((op.next cfg s m pc).proc p).saved = (s.proc p).saved ∧
      ((op.next cfg s m pc).proc p).chan = (s.proc p).chan ∧
      ((op.next cfg s m pc).proc p).kpagetable = (s.proc p).kpagetable ∧
      ((op.next cfg s m pc).proc p).kstack = (s.proc p).kstack ∧
      ((op.next cfg s m pc).proc p).tf = (s.proc p).tf := by
  have ho : (s.cpu m).on ≠ some p := fun h => hm (hI.one m' m p hon h)
  have ht := next_touch he ho
  generalize (op.next cfg s m pc).proc p = c at ht ⊢
  cases ht with
  | none => exact ⟨rfl, rfl, rfl, rfl, rfl, rfl⟩
  | edit g f =>
    obtain ⟨_, h2, h3, h4, h5, _⟩ := he.edit_frame (s.proc p)
    exact ⟨hI.edit_other he hen hm hon, h2, (he.edit_chan _).1 ho, h3, h4, h5⟩
  | free g => exact absurd hon (hI.free_off he hen m')
  | alloc r =>
    have hc : (s.cpu m).pc.child = some p := by rw [he.of_alloc.2.1]; rfl
    exact absurd hon ((hI.of_child hc).2.2.1 m')
  | copy p' =>
    have hc : (s.cpu m).pc.child = some p := by rw [he.of_copy.2.1]; rfl
    exact absurd hon ((hI.of_child hc).2.2.1 m')

/-- The process that the CPU executes, after a step that is not a switch. -/
theorem next_self (hs : op.Stays) {p : Fin n} (hon : (s.cpu m).on = some p) :
    ((op.next cfg s m pc).proc p).state = pc.state ∧
    pc.handler = ((op.next cfg s m pc).proc p).saved.isSome ∧
      ∀ c k, pc = .sleep3 c k → ((op.next cfg s m pc).proc p).chan = some c := by
  have hstate := hI.state m p hon
  have hhand := hI.handler m p hon
  have hout : ∀ q b, op ≠ .swtchOut q b := by
    rintro q b rfl
    exact hs
  have hin : ∀ q b, op ≠ .swtchIn q b := by
    rintro q b rfl
    exact hs
  -- a step that does not write the record
  have hquiet : (op.next cfg s m pc).proc p = s.proc p → (∀ g f, op ≠ .edit p g f) →
      (∀ q b, op ≠ .intr q b) → (∀ q b, op ≠ .iret q b) →
      ((op.next cfg s m pc).proc p).state = pc.state ∧
        pc.handler = ((op.next cfg s m pc).proc p).saved.isSome := by
    intro hrec h1 h2 h3
    rw [hrec, hstate, ← hhand]
    rw [hon] at he
    exact ⟨(he.state_eq hout h1 h3).symm, he.handler_eq hout hin h2 h3 nofun⟩
  have hplain : op.target ≠ some p → (∀ q g f, op ≠ .edit q g f) → (∀ q b, op ≠ .intr q b) →
      (∀ q b, op ≠ .iret q b) → ((op.next cfg s m pc).proc p).state = pc.state ∧
        pc.handler = ((op.next cfg s m pc).proc p).saved.isSome ∧
        ∀ c k, pc = .sleep3 c k → ((op.next cfg s m pc).proc p).chan = some c := by
    intro ht h1 h2 h3
    obtain ⟨hs1, hs2⟩ := hquiet (next_proc_ne ht) (h1 p) h2 h3
    exact ⟨hs1, hs2, fun c k hpc => absurd hpc (he.not_sleep3 h1 hin h3 c k)⟩
  have hne : ∀ q, s.Off q → some q ≠ some p := fun q hq h => hq m (hon.trans h.symm)
  cases op with
  | edit q g f =>
    by_cases hq : q = p
    · subst hq
      have hrec : (Op.next cfg s m (.edit q g f) pc).proc q = f (s.proc q) := update_self _ _ _
      have hc := hI.child_ne hon
      have hch := (he.edit_chan (s.proc q)).2
      have hfr := he.edit_frame (s.proc q)
      rw [hrec, hfr.2.1, ← hhand]
      refine ⟨?_, ?_, fun c k h => (hch c k h).2⟩
      · rw [hon] at he
        exact he.edit_self hen hstate hc
      · exact he.handler_eq nofun nofun nofun nofun (by rw [hon]; exact nofun)
    · have hrec : (Op.next cfg s m (.edit q g f) pc).proc p = s.proc p :=
        next_proc_ne fun h => hq (some.inj h)
      obtain ⟨h1, h2⟩ := hquiet hrec (fun g' f' h => hq (by cases h; rfl)) nofun nofun
      refine ⟨h1, h2, fun c k h => ?_⟩
      have hself := ((he.edit_chan (s.proc p)).2 c k h).1
      exact absurd (some.inj (hself.symm.trans hon)) hq
  | free q g => exact hplain (hne q (hI.free_off he hen)) nofun nofun nofun
  | alloc q r =>
    have hc : (s.cpu m).pc.child = some q := by rw [he.of_alloc.2.1]; rfl
    exact hplain (hne q (hI.of_child hc).2.2.1) nofun nofun nofun
  | copy p' q =>
    have hc : (s.cpu m).pc.child = some q := by rw [he.of_copy.2.1]; rfl
    exact hplain (hne q (hI.of_child hc).2.2.1) nofun nofun nofun
  | prepareReturn q =>
    obtain ⟨ho, hpc, rfl⟩ := he.of_prepareReturn
    obtain rfl : p = q := some.inj (hon.symm.trans ho)
    have hrec : (Op.next cfg s m (.prepareReturn p) .ret).proc p =
        { s.proc p with tf := ((s.cpu m).satp, (s.proc p).kstack) } := update_self _ _ _
    rw [hpc] at hstate hhand
    rw [hrec]
    exact ⟨hstate, hhand, nofun⟩
  | intr q b =>
    obtain ⟨ho, hpc, hb, rfl⟩ := he.of_intr
    obtain rfl : p = q := some.inj (hon.symm.trans ho)
    have hrec : (Op.next cfg s m (.intr p b) (.kern true)).proc p =
        { s.proc p with saved := some b } := update_self _ _ _
    rw [hpc, hb.state] at hstate
    rw [hrec]
    exact ⟨hstate, rfl, nofun⟩
  | iret q b =>
    obtain ⟨ho, hpc, rfl⟩ := he.of_iret
    obtain rfl : p = q := some.inj (hon.symm.trans ho)
    have hb := hI.saved p pc hen.2
    have hrec : (Op.next cfg s m (.iret p pc) pc).proc p = { s.proc p with saved := none } :=
      update_self _ _ _
    rw [hpc] at hstate
    rw [hrec]
    refine ⟨hstate.trans hb.state.symm, hb.handler, ?_⟩
    rintro c k rfl
    exact hb.elim
  | swtchOut | swtchIn => exact hs.elim
  | _ => exact hplain nofun nofun nofun nofun

/-- The three facts about the processes being executed. -/
theorem next_running {m' : M} (hon : ((op.next cfg s m pc).cpu m').on = some p) :
    ((op.next cfg s m pc).proc p).state = ((op.next cfg s m pc).cpu m').pc.state ∧
      ((op.next cfg s m pc).cpu m').pc.handler = ((op.next cfg s m pc).proc p).saved.isSome ∧
      ∀ c k, ((op.next cfg s m pc).cpu m').pc = .sleep3 c k →
        ((op.next cfg s m pc).proc p).chan = some c := by
  by_cases hm : m' = m
  · subst hm
    rw [next_pc]
    rw [next_on] at hon
    have hself := next_self hI he hen
    cases op with
    | swtchOut q b => cases hon
    | swtchIn q b =>
      obtain rfl : q = p := some.inj hon
      obtain ⟨h1, h2, rfl⟩ := he.of_swtchIn
      have hb : (s.proc q).pc = pc := hen
      obtain ⟨_, hr1, _, _, hr2, _, hr3, hr4⟩ := hI.resumes (i := q) h1 (by rw [h2]; rfl)
      have hrec : (Op.next cfg s m' (.swtchIn q pc) pc).proc q = s.proc q := rfl
      rw [hrec, ← hb]
      exact ⟨hr1.trans hr2.symm, hr4, fun c k h => absurd h (hr3 c k)⟩
    | _ => exact hself trivial hon
  · rw [next_cpu_ne hm] at hon ⊢
    obtain ⟨h1, h2, h3, _⟩ := next_other hI he hen hm hon
    rw [h1, h2, h3]
    exact ⟨hI.state m' p hon, hI.handler m' p hon, fun c k h => hI.chan m' p c k hon h⟩

omit hen in
theorem next_saved {b : Pc n C K} (hb : ((op.next cfg s m pc).proc p).saved = some b) :
    b.interruptible := by
  rcases next_saved_cases he p with h | h | ⟨b', rfl, h⟩
  · exact hI.saved p b (h ▸ hb)
  · rw [h] at hb
    cases hb
  · rw [h] at hb
    cases hb
    exact he.of_intr.2.2.1

theorem next_parked (hoff : (op.next cfg s m pc).Off p) :
    ((op.next cfg s m pc).proc p).Parked := by
  by_cases h0 : s.Off p
  · have hp := hI.parked p h0
    have ht := next_touch he (h0 m)
    generalize (op.next cfg s m pc).proc p = c at ht ⊢
    cases ht with
    | none => exact hp
    | edit g f => exact he.edit_parked hen (h0 m) hp fun hc => (hI.of_child hc).2.2.2
    | free g => exact hI.free_parked he hen
    | alloc r =>
      have hc : (s.cpu m).pc.child = some p := by rw [he.of_alloc.2.1]; rfl
      exact ⟨rfl, .inl (hI.of_child hc).2.1⟩
    | copy p' => exact hp
  · -- the process has just switched away
    obtain ⟨m', hon⟩ : ∃ m', (s.cpu m').on = some p := by
      by_contra hno
      exact h0 fun m' h => hno ⟨m', h⟩
    obtain rfl : m' = m := by
      by_contra hm
      exact hoff m' (by rw [next_cpu_ne hm]; exact hon)
    have hstay : op.Stays → ∀ m1, ((op.next cfg s m' pc).cpu m1).on = (s.cpu m1).on := next_on_eq
    cases op with
    | swtchOut q b =>
      obtain ⟨ho, _, _, hpark⟩ := he.of_swtchOut
      obtain rfl : q = p := some.inj (ho.symm.trans hon)
      show (update s.proc q { s.proc q with sp := (s.cpu m').stack, pc := b } q).Parked
      rw [update_self]
      exact hpark _ rfl (hI.state m' q hon) (hI.handler m' q hon) fun x k h =>
        hI.chan m' q x k hon h
    | swtchIn q b =>
      rw [he.of_swtchIn.1] at hon
      cases hon
    | _ => exact absurd hon (hstay trivial m' ▸ hoff m')

theorem next_started {m' : M} (hon : ((op.next cfg s m pc).cpu m').on = none)
    (hpc : ((op.next cfg s m pc).cpu m').pc.starts i) :
    (op.next cfg s m pc).Off i ∧ ((op.next cfg s m pc).proc i).state = .running := by
  have hstay : op.Stays → ∀ m1, ((op.next cfg s m pc).cpu m1).on = (s.cpu m1).on := next_on_eq
  by_cases hm : m' = m
  · subst hm
    rw [next_pc] at hpc
    by_cases hst : op.Stays
    · have hidle : (s.cpu m').on = none := (hstay hst m').symm.trans hon
      have hin : ∀ q b, op ≠ .swtchIn q b := by
        rintro q b rfl
        exact hst
      have he' := he
      rw [hidle] at he'
      rcases he'.starts_of hin hpc with ⟨h1, r, rfl⟩ | ⟨h1, g, f, rfl, hgf⟩
      · obtain ⟨hoff, hrun⟩ := hI.started m' i hidle h1
        exact ⟨fun m1 => by rw [hstay hst]; exact hoff m1, hrun⟩
      · obtain ⟨hrun, hrun'⟩ := hgf _ hen
        refine ⟨fun m1 => ?_, ?_⟩
        · rw [hstay hst]
          intro hon1
          have hl := hI.locks hon1 (by rw [hrun]; exact nofun)
          obtain rfl := hI.lock_unique (m := m') (q := i) (by rw [h1]; rfl) hl
          exact nomatch hidle.symm.trans hon1
        · show (update s.proc i (f (s.proc i)) i).state = _
          rw [update_self]
          exact hrun'
    · rw [next_on] at hon
      cases op with
      | swtchOut q b =>
        obtain ⟨_, rfl, _⟩ := he.of_swtchOut
        exact hpc.elim
      | swtchIn q b => cases hon
      | _ => exact absurd trivial hst
  · rw [next_cpu_ne hm] at hon hpc
    obtain ⟨hoff, hrun⟩ := hI.started m' i hon hpc
    have hl := hpc.lock (s.cpu m').on
    have hl' : (s.cpu m).pc.lock (s.cpu m).on ≠ some i := fun h => hm (hI.lock_unique hl h)
    refine ⟨fun m1 => ?_, ?_⟩
    · by_cases hm1 : m1 = m
      · subst hm1
        rw [next_on]
        cases op with
        | swtchOut q b => exact nofun
        | swtchIn q b =>
          intro h
          obtain rfl : q = i := some.inj h
          obtain ⟨_, h2, _⟩ := he.of_swtchIn
          exact hl' (by rw [h2]; rfl)
        | _ => exact hoff m1
      · rw [next_cpu_ne hm1]
        exact hoff m1
    · have ht := next_touch he (hoff m)
      generalize (op.next cfg s m pc).proc i = c at ht ⊢
      cases ht with
      | none => exact hrun
      | edit g f => rw [he.edit_unlocked _ hl', hrun]
      | free g => exact absurd he.of_free.2.1 hl'
      | alloc r => exact absurd (by rw [he.of_alloc.2.1]; rfl) hl'
      | copy p' => exact absurd (by rw [he.of_copy.2.1]; rfl) hl'

/-- Where a position that has claimed slot `i` comes from: it stood there before, the CPU has
    come to it from another such position, or the slot has just been claimed. -/
theorem next_claim {f : Pc n C K} (hf : (op.next cfg s m pc).Frame p f)
    (hc : f.child = some i) : s.Frame p f ∧ ((s.cpu m).pc.child ≠ some i ∨ ∃ b, op = .intr p b) ∨
      (s.cpu m).on = some p ∧ (s.cpu m).pc.child = some i ∧ f = pc ∧ (∀ q b, op ≠ .intr q b) ∧
        (pc.childPc = (s.cpu m).pc.childPc ∨ ∃ q r, op = .alloc q r) ∨
      (s.cpu m).on = some p ∧ f = .forkUsed i ∧ (s.proc i).state = .unused ∧
        ((op.next cfg s m pc).proc i).state = .used ∧ op.target = some i ∧ op.Stays ∧
        ((op.next cfg s m pc).proc i).pc = (s.proc i).pc := by
  -- no other position has claimed the slot when the CPU has
  have hother : s.Frame p f → (∀ m', (s.cpu m').on = some p → (s.cpu m').pc = f → m' ≠ m) →
      (s.cpu m).pc.child ≠ some i := by
    intro hfr hne hci
    obtain ⟨⟨p', hon⟩, _⟩ := hI.of_child hci
    obtain ⟨rfl, rfl⟩ := hI.excl p f p' _ i hfr (.inl ⟨m, hon, rfl⟩) hc hci
    exact hne m hon rfl rfl
  rcases hf with ⟨m', hon, hpc⟩ | hs
  · by_cases hm : m' = m
    · subst hm
      rw [next_pc] at hpc
      subst hpc
      rw [next_on] at hon
      have hsplit := he.child_eq
      cases op with
      | swtchOut q b =>
        obtain ⟨_, rfl, _⟩ := he.of_swtchOut
        cases hc
      | swtchIn q b =>
        obtain ⟨h1, h2, rfl⟩ := he.of_swtchIn
        have hb : (s.proc q).pc = pc := hen
        have := (hI.resumes (i := q) h1 (by rw [h2]; rfl)).2.2.2.2.2.1
        rw [hb, hc] at this
        cases this
      | intr q b =>
        obtain ⟨_, _, _, rfl⟩ := he.of_intr
        cases hc
      | iret q b =>
        obtain ⟨h1, h2, rfl⟩ := he.of_iret
        obtain rfl : p = q := some.inj (hon.symm.trans h1)
        refine .inl ⟨.inr hen.2, .inl ?_⟩
        rw [h2]
        exact nofun
      | edit q g e =>
        rcases hsplit nofun nofun nofun with h | ⟨h1, h2⟩ | ⟨i', g', e', h1, rfl, h3⟩
        · rw [h] at hc
          cases hc
        · exact .inr (.inl ⟨hon, h1 ▸ hc, rfl, nofun, h2⟩)
        · cases h1
          cases hc
          refine .inr (.inr ⟨hon, rfl, (h3 _ hen).1, ?_, rfl, trivial, ?_⟩)
          · show (update s.proc i (e (s.proc i)) i).state = _
            rw [update_self]
            exact (h3 _ hen).2
          · show (update s.proc i (e (s.proc i)) i).pc = _
            rw [update_self]
            exact (he.edit_frame _).1
      | _ =>
        rcases hsplit nofun nofun nofun with h | ⟨h1, h2⟩ | ⟨i', g', e', h1, _⟩
        · rw [h] at hc
          cases hc
        · exact .inr (.inl ⟨hon, h1 ▸ hc, rfl, nofun, h2⟩)
        · cases h1
    · rw [next_cpu_ne hm] at hon hpc
      have hfr : s.Frame p f := .inl ⟨m', hon, hpc⟩
      refine .inl ⟨hfr, .inl (hother hfr fun m1 h1 _ => ?_)⟩
      exact hI.one m1 m' p h1 hon ▸ hm
  · rcases next_saved_cases he p with h | h | ⟨b, rfl, h⟩
    · rw [h] at hs
      have hfr : s.Frame p f := .inr hs
      refine .inl ⟨hfr, .inl (hother hfr fun m1 h1 h2 _ => ?_)⟩
      -- a handler has claimed nothing
      have hh := hI.handler m1 p h1
      rw [hs, h2] at hh
      revert hc hh
      cases f <;> simp [Pc.child, Pc.handler]
    · rw [h] at hs
      cases hs
    · rw [h] at hs
      cases hs
      obtain ⟨h1, h2, _⟩ := he.of_intr
      exact .inl ⟨.inl ⟨m, h1, h2⟩, .inr ⟨_, rfl⟩⟩

omit hen in
/-- A claimed slot is not started. -/
theorem next_off (hoff : s.Off i) (hrun : (s.proc i).state ≠ .running) :
    (op.next cfg s m pc).Off i := by
  intro m1
  by_cases hm : m1 = m
  · subst hm
    rw [next_on]
    cases op with
    | swtchOut q b => exact nofun
    | swtchIn q b =>
      intro h
      obtain rfl : q = i := some.inj h
      obtain ⟨h1, h2, _⟩ := he.of_swtchIn
      exact hrun (hI.started m1 q h1 (by rw [h2]; rfl)).2
    | _ => exact hoff m1
  · rw [next_cpu_ne hm]
    exact hoff m1

omit hI in
/-- Another fork's slot is left alone. -/
theorem next_used (hoff : s.Off i) (hu : (s.proc i).state = .used)
    (hc : (s.cpu m).pc.child ≠ some i) : ((op.next cfg s m pc).proc i).state = .used ∧
      ((op.next cfg s m pc).proc i).pc = (s.proc i).pc := by
  have ht := next_touch he (hoff m)
  generalize (op.next cfg s m pc).proc i = c at ht ⊢
  cases ht with
  | none => exact ⟨hu, rfl⟩
  | edit g f => exact ⟨he.edit_used hen (hoff m) hu hc, (he.edit_frame _).1⟩
  | free g =>
    obtain ⟨_, _, _, _, h | h⟩ := he.of_free
    · exact absurd h hc
    · exact nomatch hu.symm.trans (h _ hen)
  | alloc r => exact absurd (by rw [he.of_alloc.2.1]; rfl) hc
  | copy p => exact absurd (by rw [he.of_copy.2.1]; rfl) hc

theorem next_child {f : Pc n C K} (hf : (op.next cfg s m pc).Frame p f)
    (hc : f.child = some i) : ((op.next cfg s m pc).proc i).state = .used ∧
    (op.next cfg s m pc).Off i ∧
      ((op.next cfg s m pc).proc i).pc = f.childPc := by
  rcases next_claim hI he hen hf hc with ⟨hfr, h⟩ | ⟨hon, hci, rfl, hintr, hpc⟩ |
    ⟨hon, rfl, hun, hused, ht, hst, hpc⟩
  · obtain ⟨hu, hoff, hpc⟩ := hI.child p f i hfr hc
    have hoff' := next_off hI he hoff (by rw [hu]; exact nofun)
    rcases h with h | ⟨b, rfl⟩
    · obtain ⟨h1, h2⟩ := next_used he hen hoff hu h
      exact ⟨h1, hoff', h2.trans hpc⟩
    · have hne : (Op.intr p b : Op n C K R).target ≠ some i := fun h =>
        hoff m (h ▸ he.of_intr.1)
      rw [next_proc_ne hne]
      exact ⟨hu, hoff', hpc⟩
  · obtain ⟨_, hu, hoff, hpc0⟩ := hI.of_child hci
    obtain ⟨h1, h2, h3⟩ := next_mine he hoff hci hc
    refine ⟨h1.trans hu, next_off hI he hoff (by rw [hu]; exact nofun), ?_⟩
    by_cases ha : ∃ q r, op = .alloc q r
    · obtain ⟨q, r, ha⟩ := ha
      exact h3 q r ha
    · rw [h2 fun q r h => ha ⟨q, r, h⟩, hpc0]
      exact (hpc.resolve_right ha).symm
  · -- nobody executes an unused slot
    have hoff : s.Off i := by
      intro m1 h
      have hs := hI.state m1 i h
      rw [hun] at hs
      revert hs
      cases (s.cpu m1).pc <;> exact nofun
    refine ⟨hused, next_off hI he hoff (by rw [hun]; exact nofun), ?_⟩
    have hp := (hI.parked i hoff).2
    rw [hun] at hp
    rw [hpc]
    cases hpc' : (s.proc i).pc with
    | unborn => rfl
    | _ =>
      rw [hpc'] at hp
      simp at hp

theorem next_excl {p' : Fin n} {f f' : Pc n C K}
    (hf : (op.next cfg s m pc).Frame p f) (hf' : (op.next cfg s m pc).Frame p' f')
    (hc : f.child = some i) (hc' : f'.child = some i) : p = p' ∧ f = f' := by
  have hnew : ∀ p f, s.Frame p f → f.child = some i → (s.proc i).state ≠ .unused := by
    intro p f h1 h2
    rw [(hI.child p f i h1 h2).1]
    exact nofun
  -- one frame stood there before, the other has just been reached
  have hmix : ∀ p, ((s.cpu m).pc.child ≠ some i ∨ ∃ b, op = .intr p b) →
      (s.cpu m).pc.child = some i → (∀ q b, op ≠ .intr q b) → False := by
    intro p h h1 h2
    rcases h with h | ⟨b, h⟩
    · exact h h1
    · exact h2 _ _ h
  rcases next_claim hI he hen hf hc with
    ⟨hfr, h⟩ | ⟨hon, hci, rfl, hintr, _⟩ | ⟨hon, rfl, hun, _⟩ <;>
    rcases next_claim hI he hen hf' hc' with
      ⟨hfr', h'⟩ | ⟨hon', hci', rfl, hintr', _⟩ | ⟨hon', rfl, hun', _⟩
  · exact hI.excl p f p' f' i hfr hfr' hc hc'
  · exact (hmix p h hci' hintr').elim
  · exact absurd hun' (hnew p f hfr hc)
  · exact (hmix p' h' hci hintr).elim
  · exact ⟨some.inj (hon.symm.trans hon'), rfl⟩
  · exact absurd hun' (hnew p _ (.inl ⟨m, hon, rfl⟩) hci)
  · exact absurd hun (hnew p' f' hfr' hc')
  · exact absurd hun (hnew p' _ (.inl ⟨m, hon', rfl⟩) hci')
  · exact ⟨some.inj (hon.symm.trans hon'), rfl⟩

omit hI he hen

/-! ## Every run -/

theorem inv_step (hI : Inv s) {l : M × Option (Fin n)} {s' : State n M C K R}
    (h : Step cfg s l s') : Inv s' := by
  obtain ⟨op, pc, he, hen, _, rfl⟩ := h
  exact
    { lock := next_lock hI he hen
      one := next_one hI he
      fits := next_fits hI he hen
      state := fun _ _ hon => (next_running hI he hen hon).1
      handler := fun _ _ hon => (next_running hI he hen hon).2.1
      chan := fun _ _ _ _ hon => (next_running hI he hen hon).2.2 _ _
      saved := fun _ _ => next_saved hI he
      parked := fun _ => next_parked hI he hen
      started := fun _ _ => next_started hI he hen
      child := fun _ _ _ => next_child hI he hen
      excl := fun _ _ _ _ _ => next_excl hI he hen }

/-- **The invariant.** It holds in every state of every run. -/
theorem inv_run {r : R} {pid : ℤ} {cond : Bool} {ls : List (M × Option (Fin n))}
    (h : Run (Step cfg) (init cfg r pid cond) ls s) : Inv s :=
  h.inv_state (inv_init r pid cond) fun _ _ _ hI hs => inv_step hI hs

end Step

end Xv6.Sched
