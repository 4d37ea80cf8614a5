/-
  Which page table and which stack a CPU uses.

  Kernel code of a process runs on the process's own kernel page table and stack; the scheduler
  runs on `kernel_pagetable` and the boot stack, apart from the window around `swtch` in which
  the table of the process is loaded. The trapframe of a process that has called
  `prepare_return` names the process's own table and stack. A process that `freeproc` is applied
  to is executed by nobody, and whoever has its table loaded would have to hold its lock; so
  what is freed is in use on no CPU.
-/
import Xv6.Sched.Invariant

namespace Xv6.Sched

open Lib Process

variable {n : ℕ} {M C K R : Type}

/-- The process whose page table the scheduler has loaded. -/
def Pc.loaded : Pc n C K → Option (Fin n)
  | .schedGo i | .schedBack i => some i
  | _ => none

/-- On the way to user mode, or there. -/
def Pc.returns : Pc n C K → Prop
  | .ret | .user => True
  | _ => False

theorem Pc.returns_user {pc : Pc n C K} (h : pc = .user) : pc.returns := by
  rw [h]
  trivial

theorem Pc.lock_of_loaded {pc : Pc n C K} {i : Fin n} (h : pc.loaded = some i)
    (o : Option (Fin n)) : pc.lock o = some i := by
  cases pc <;> first | exact h | cases h

/-- A process that can be started is neither on its way to user mode nor without a thread. -/
theorem PRec.Parked.not_returns {c : PRec n C K R} (h : c.Parked) (hs : c.state = .running) :
    ¬ c.pc.returns ∧ c.pc ≠ .unborn := by
  have h := h.2
  rw [hs] at h
  cases hpc : c.pc with
  | forkret | yielded | asleep => exact ⟨fun h => h, nofun⟩
  | _ =>
    rw [hpc] at h
    simp at h

namespace Edge

variable [DecidableEq C] {cfg : Cfg n C K} {o : Option (Fin n)} {pc pc' : Pc n C K}
  {op : Op n C K R}
  {p q : Fin n} {r : R}

theorem of_load (he : Edge cfg o pc (.load q r : Op n C K R) pc') :
    o = none ∧ pc = .schedLoad q ∧ pc' = .schedGo q := by
  cases he
  exact ⟨rfl, rfl, rfl⟩

theorem of_kernel (he : Edge cfg o pc (.kernel : Op n C K R) pc') :
    o = none ∧ pc'.loaded = none := by
  cases he
  exact ⟨rfl, rfl⟩

theorem of_userret (he : Edge cfg o pc (.userret q : Op n C K R) pc') :
    o = some q ∧ pc = .ret ∧ pc' = .user := by
  cases he
  exact ⟨rfl, rfl, rfl⟩

theorem of_uservec (he : Edge cfg o pc (.uservec q : Op n C K R) pc') :
    o = some q ∧ pc = .user ∧ pc' = .kern false := by
  cases he
  exact ⟨rfl, rfl, rfl⟩

theorem swtchOut_not_user {b : Pc n C K} (he : Edge cfg o pc (.swtchOut q b : Op n C K R) pc') :
    pc ≠ .user ∧ b ≠ .unborn := by
  cases he <;> exact ⟨nofun, nofun⟩

/-- Operations that leave the registers and do not prepare a return to user mode. -/
def Quiet : Op n C K R → Prop
  | .swtchOut _ _ | .swtchIn _ _ | .load _ _ | .kernel | .prepareReturn _ | .userret _
  | .uservec _ =>
    False
  | _ => True

/-- Such steps are made outside the window around `swtch` and the way to user mode. -/
theorem of_quiet (he : Edge cfg o pc op pc') (hq : Quiet op) (hi : ∀ q b, op ≠ .iret q b) :
    pc ≠ .user ∧ ¬ pc'.returns ∧ pc'.loaded = none ∧ (o = none → pc.loaded = none) := by
  cases he with
  | intr p b hb =>
    refine ⟨?_, fun h => h, rfl, nofun⟩
    rintro rfl
    exact hb
  | iret p b => exact absurd rfl (hi _ _)
  | yieldSched | sleepSched | exitSched | prepareReturn | userret | uservec | schedLoad | schedSwtch
  | schedBack => exact hq.elim
  | _ => exact ⟨nofun, fun h => h, rfl, fun _ => rfl⟩

end Edge

/-! ## Records -/

/-- A CPU that executes process `p`, with record `q`, uses what belongs to `p`. -/
def Cpu.Own (c : Cpu n C K R) (p : Fin n) (q : PRec n C K R) : Prop :=
  c.stack = .kstack p ∧ (c.pc = .user → c.satp = .user p) ∧
    ∀ r, q.kpagetable = some r →
      (c.pc ≠ .user → c.satp = .kpt r) ∧ (c.pc.returns → q.tf = (.kpt r, .kstack p))

/-- A CPU in the scheduler. -/
def Cpu.Idle (c : Cpu n C K R) (proc : Fin n → PRec n C K R) : Prop :=
  c.stack = .boot ∧
    match c.pc.loaded with
    | some i => ∃ r, (proc i).kpagetable = some r ∧ c.satp = .kpt r
    | none => c.satp = .kernel

structure Tables (s : State n M C K R) : Prop where
  inj : ∀ p q r, (s.proc p).kpagetable = some r → (s.proc q).kpagetable = some r → p = q
  live : ∀ p, (s.proc p).pc ≠ .unborn →
    (∃ r, (s.proc p).kpagetable = some r) ∧ (s.proc p).kstack = .kstack p
  born : ∀ m p, (s.cpu m).on = some p → (s.proc p).pc ≠ .unborn
  sp : ∀ p, s.Off p → (s.proc p).pc ≠ .unborn → (s.proc p).sp = .kstack p
  own : ∀ m p, (s.cpu m).on = some p → (s.cpu m).Own p (s.proc p)
  idle : ∀ m, (s.cpu m).on = none → (s.cpu m).Idle s.proc

theorem tables_init {cfg : Cfg n C K} (r : R) (pid : ℤ) (cond : Bool) :
    Tables (init cfg r pid cond : State n M C K R) where
  inj := by
    intro p q r' hp hq
    unfold init at hp hq
    dsimp only at hp hq
    split at hp
    · rename_i h1
      split at hq
      · rename_i h2
        exact h1.trans h2.symm
      · cases hq
    · cases hp
  live := by
    intro p h
    unfold init at h ⊢
    dsimp only at h ⊢
    split at h
    · rename_i hp
      rw [if_pos hp]
      exact ⟨⟨r, rfl⟩, rfl⟩
    · exact absurd rfl h
  born := fun _ _ h => nomatch h
  sp := by
    intro p _ h
    unfold init at h ⊢
    dsimp only at h ⊢
    split at h
    · rename_i hp
      rw [if_pos hp]
    · exact absurd rfl h
  own := fun _ _ h => nomatch h
  idle := fun _ _ => ⟨rfl, rfl⟩

section

variable {s : State n M C K R} {m : M} [DecidableEq C] {cfg : Cfg n C K} {op : Op n C K R}
  {pc : Pc n C K}

section

variable (hI : Inv s) (he : Edge cfg (s.cpu m).on (s.cpu m).pc op pc)

include hI he

/-- A process that some CPU executes is neither freed nor allocated. -/
theorem Inv.executed (hen : op.Enabled cfg s m) {m' : M} {p : Fin n}
    (hon : (s.cpu m').on = some p) :
    (∀ g, op ≠ .free p g) ∧ (∀ r, op ≠ .alloc p r) ∧ ∀ q, op ≠ .copy q p := by
  refine ⟨?_, ?_, ?_⟩
  · rintro g rfl
    exact hI.free_off he hen m' hon
  · rintro r rfl
    have hc : (s.cpu m).pc.child = some p := by rw [he.of_alloc.2.1]; rfl
    exact (hI.of_child hc).2.2.1 m' hon
  · rintro q rfl
    have hc : (s.cpu m).pc.child = some p := by rw [he.of_copy.2.1]; rfl
    exact (hI.of_child hc).2.2.1 m' hon

/-- A process whose lock another CPU holds is neither freed nor allocated. -/
theorem Inv.locked {m' : M} {p : Fin n} (hl : (s.cpu m').pc.lock (s.cpu m').on = some p)
    (hm : m' ≠ m) :
    (∀ g, op ≠ .free p g) ∧ ∀ r, op ≠ .alloc p r := by
  refine ⟨?_, ?_⟩
  · rintro g rfl
    exact hm (hI.lock_unique hl he.of_free.2.1)
  · rintro r rfl
    exact hm (hI.lock_unique hl (by rw [he.of_alloc.2.1]; rfl))

/-- A process that is executed before and after a step has not switched away in it. -/
theorem Inv.not_swtchOut {m' : M}
    {p : Fin n} (hon : (s.cpu m').on = some p) (hst : m' = m → op.Stays) (b : Pc n C K) :
    op ≠ .swtchOut p b := by
  rintro rfl
  exact hst (hI.one m' m p hon he.of_swtchOut.1)

/-- Where a step that leaves the registers starts and ends. -/
theorem Inv.quiet (hen : op.Enabled cfg s m) (hq : Edge.Quiet op) :
    (s.cpu m).pc ≠ .user ∧ ¬ pc.returns ∧ pc.loaded = none ∧
      ((s.cpu m).on = none → (s.cpu m).pc.loaded = none) := by
  by_cases hi : ∃ q b, op = .iret q b
  · obtain ⟨q, b, rfl⟩ := hi
    obtain ⟨h1, h2, rfl⟩ := he.of_iret
    have hb := hI.saved q pc hen.2
    rw [h1, h2]
    refine ⟨nofun, ?_, ?_, nofun⟩
    · revert hb
      cases pc <;> simp [Pc.interruptible, Pc.returns]
    · revert hb
      cases pc <;> simp [Pc.interruptible, Pc.loaded]
  · exact he.of_quiet hq fun q b h => hi ⟨q, b, h⟩

end

end

section Step

variable [DecidableEq M] [DecidableEq C] [DecidableEq K] {cfg : Cfg n C K} {s : State n M C K R}
  {m : M} {op : Op n C K R} {pc : Pc n C K}

/-- What a step leaves in the record of process `q`. -/
theorem next_record (he : Edge cfg (s.cpu m).on (s.cpu m).pc op pc) (q : Fin n)
    (h1 : ∀ g, op ≠ .free q g) (h2 : ∀ r, op ≠ .alloc q r) :
    ((op.next cfg s m pc).proc q).kpagetable = (s.proc q).kpagetable ∧
      ((op.next cfg s m pc).proc q).kstack = (s.proc q).kstack ∧
      ((∀ b, op ≠ .swtchOut q b) → ((op.next cfg s m pc).proc q).pc = (s.proc q).pc ∧
        ((op.next cfg s m pc).proc q).sp = (s.proc q).sp) ∧
          ((∀ p, op ≠ .copy p q) → op ≠ .prepareReturn q →
        ((op.next cfg s m pc).proc q).tf = (s.proc q).tf) := by
  have hw : Wrote s m q op ((op.next cfg s m pc).proc q) := next_wrote q
  generalize (op.next cfg s m pc).proc q = c at hw ⊢
  cases hw with
  | edit g f =>
    obtain ⟨e1, _, e2, e3, e4, e5⟩ := he.edit_frame (s.proc q)
    exact ⟨e2, e3, fun _ => ⟨e1, e5⟩, fun _ _ => e4⟩
  | free g => exact absurd rfl (h1 g)
  | alloc r => exact absurd rfl (h2 r)
  | copy p => exact ⟨rfl, rfl, fun _ => ⟨rfl, rfl⟩, fun h => absurd rfl (h p)⟩
  | swtchOut b => exact ⟨rfl, rfl, fun h => absurd rfl (h b), fun _ _ => rfl⟩
  | prepareReturn => exact ⟨rfl, rfl, fun _ => ⟨rfl, rfl⟩, fun _ h => absurd rfl h⟩
  | none | intr | iret => exact ⟨rfl, rfl, fun _ => ⟨rfl, rfl⟩, fun _ _ => rfl⟩

omit [DecidableEq C] [DecidableEq K] in
/-- A slot is freed, or allocated, or neither. -/
theorem Op.slot_cases (op : Op n C K R) (p : Fin n) :
    (∃ g, op = .free p g) ∨ (∃ r, op = .alloc p r) ∨
    (∀ g, op ≠ .free p g) ∧ ∀ r, op ≠ .alloc p r := by
  by_cases h1 : ∃ g, op = .free p g
  · exact .inl h1
  by_cases h2 : ∃ r, op = .alloc p r
  · exact .inr (.inl h2)
  exact .inr (.inr ⟨fun g h => h1 ⟨g, h⟩, fun r h => h2 ⟨r, h⟩⟩)

theorem next_free {q : Fin n} {g : PRec n C K R → Prop} :
    ((Op.free q g).next cfg s m pc).proc q = freeproc (s.proc q) :=
  Function.update_self _ _ _

theorem next_alloc {q : Fin n} {r : R} :
    ((Op.alloc q r).next cfg s m pc).proc q = allocproc q r (s.proc q) :=
  Function.update_self _ _ _

theorem next_inj (hT : Tables s) (he : Edge cfg (s.cpu m).on (s.cpu m).pc op pc)
    (hen : op.Enabled cfg s m) (p q : Fin n) (r : R)
    (hp : ((op.next cfg s m pc).proc p).kpagetable = some r)
    (hq : ((op.next cfg s m pc).proc q).kpagetable = some r) : p = q := by
  -- a table that a slot has now is the one it had, or the new one
  have hold : ∀ p, ((op.next cfg s m pc).proc p).kpagetable = some r →
      (s.proc p).kpagetable = some r ∨ op = .alloc p r := by
    intro p hp
    rcases op.slot_cases p with ⟨g, rfl⟩ | ⟨r', rfl⟩ | ⟨h1, h2⟩
    · rw [next_free] at hp
      cases hp
    · rw [next_alloc] at hp
      cases hp
      exact .inr rfl
    · rw [(next_record he p h1 h2).1] at hp
      exact .inl hp
  rcases hold p hp with h1 | h1 <;> rcases hold q hq with h2 | h2
  · exact hT.inj p q r h1 h2
  · subst h2
    exact absurd h1 (hen p)
  · subst h1
    exact absurd h2 (hen q)
  · rw [h1] at h2
    cases h2
    rfl

theorem next_live (hT : Tables s) (he : Edge cfg (s.cpu m).on (s.cpu m).pc op pc)
    (p : Fin n) (hpc : ((op.next cfg s m pc).proc p).pc ≠ .unborn) :
    (∃ r, ((op.next cfg s m pc).proc p).kpagetable = some r) ∧
      ((op.next cfg s m pc).proc p).kstack = .kstack p := by
  rcases op.slot_cases p with ⟨g, rfl⟩ | ⟨r, rfl⟩ | ⟨h1, h2⟩
  · rw [next_free] at hpc
    exact absurd rfl hpc
  · rw [next_alloc]
    exact ⟨⟨r, rfl⟩, rfl⟩
  · obtain ⟨e1, e2, e3, _⟩ := next_record he p h1 h2
    rw [e1, e2]
    by_cases h3 : ∃ b, op = .swtchOut p b
    · obtain ⟨b, rfl⟩ := h3
      exact hT.live p (hT.born m p he.of_swtchOut.1)
    · exact hT.live p ((e3 fun b h => h3 ⟨b, h⟩).1 ▸ hpc)

/-- A process that a CPU executes after a step: it did so before, or it has just been started. -/
theorem next_on_cases (he : Edge cfg (s.cpu m).on (s.cpu m).pc op pc) {m' : M} {p : Fin n}
    (hon : ((op.next cfg s m pc).cpu m').on = some p) :
    (s.cpu m').on = some p ∧ (m' = m → op.Stays) ∨
      m' = m ∧ (s.cpu m).on = none ∧ (s.cpu m).pc = .schedGo p ∧ op = .swtchIn p pc := by
  by_cases hm : m' = m
  · subst hm
    rw [next_on] at hon
    cases op with
    | swtchOut q b => cases hon
    | swtchIn q b =>
      obtain ⟨h1, h2, rfl⟩ := he.of_swtchIn
      cases hon
      exact .inr ⟨rfl, h1, h2, rfl⟩
    | _ => exact .inl ⟨hon, fun _ => trivial⟩
  · rw [next_cpu_ne hm] at hon
    exact .inl ⟨hon, fun h => absurd h hm⟩

theorem next_born (hI : Inv s) (hT : Tables s) (he : Edge cfg (s.cpu m).on (s.cpu m).pc op pc)
    (hen : op.Enabled cfg s m) (m' : M) (p : Fin n)
    (hon : ((op.next cfg s m pc).cpu m').on = some p) :
    ((op.next cfg s m pc).proc p).pc ≠ .unborn := by
  rcases next_on_cases he hon with ⟨hon', hst⟩ | ⟨_, h1, h2, rfl⟩
  · obtain ⟨e1, e2, _⟩ := hI.executed he hen hon'
    rw [((next_record he p e1 e2).2.2.1 (hI.not_swtchOut he hon' hst)).1]
    exact hT.born m' p hon'
  · have hne : (Op.swtchIn p pc : Op n C K R).target ≠ some p := nofun
    rw [next_proc_ne hne]
    obtain ⟨hoff, hrun⟩ := hI.started m p h1 (by rw [h2]; rfl)
    exact ((hI.parked p hoff).not_returns hrun).2

/-- Who executes a process goes on executing it until it switches away. -/
theorem off_of_next (he : Edge cfg (s.cpu m).on (s.cpu m).pc op pc) {p : Fin n}
    (hoff : (op.next cfg s m pc).Off p) (hne : ∀ b, op ≠ .swtchOut p b) : s.Off p := by
  intro m' hon
  by_cases hm : m' = m
  · subst hm
    have hon' := hoff m'
    rw [next_on] at hon'
    cases op with
    | swtchOut q b =>
      obtain rfl : q = p := Option.some.inj (he.of_swtchOut.1.symm.trans hon)
      exact hne b rfl
    | swtchIn q b => exact nomatch he.of_swtchIn.1.symm.trans hon
    | _ => exact hon' hon
  · exact hoff m' (by rw [next_cpu_ne hm]; exact hon)

theorem next_sp (hT : Tables s) (he : Edge cfg (s.cpu m).on (s.cpu m).pc op pc)
    (p : Fin n) (hoff : (op.next cfg s m pc).Off p)
    (hpc : ((op.next cfg s m pc).proc p).pc ≠ .unborn) :
    ((op.next cfg s m pc).proc p).sp = .kstack p := by
  rcases op.slot_cases p with ⟨g, rfl⟩ | ⟨r, rfl⟩ | ⟨h1, h2⟩
  · rw [next_free] at hpc
    exact absurd rfl hpc
  · rw [next_alloc]
    rfl
  · by_cases h3 : ∃ b, op = .swtchOut p b
    · obtain ⟨b, rfl⟩ := h3
      have hrec : ((Op.swtchOut p b).next cfg s m pc).proc p =
          { s.proc p with sp := (s.cpu m).stack, pc := b } := Function.update_self _ _ _
      rw [hrec]
      exact (hT.own m p he.of_swtchOut.1).1
    · obtain ⟨e1, e2⟩ := (next_record he p h1 h2).2.2.1 fun b h => h3 ⟨b, h⟩
      rw [e2]
      exact hT.sp p (off_of_next he hoff fun b h => h3 ⟨b, h⟩) (e1 ▸ hpc)

/-! ## Registers -/

theorem next_setCpu {s1 : State n M C K R} {c c' : Cpu n C K R}
    (h : op.apply cfg s m = s1.setCpu m c) (hc : { c with pc := pc } = c') :
    (op.next cfg s m pc).cpu m = c' := by
  rw [next_cpu, h, ← hc]
  unfold State.setCpu
  dsimp only
  rw [Function.update_self]

theorem next_quiet (cfg : Cfg n C K) (s : State n M C K R) (m : M) (pc : Pc n C K)
    (hq : Edge.Quiet op) :
    ((op.next cfg s m pc).cpu m).satp = (s.cpu m).satp ∧
      ((op.next cfg s m pc).cpu m).stack = (s.cpu m).stack := by
  rw [next_cpu]
  cases op with
  | swtchOut | swtchIn | load | kernel | prepareReturn | userret | uservec => exact hq.elim
  | woken c =>
    unfold Op.apply
    dsimp only
    split <;> exact ⟨rfl, rfl⟩
  | _ => exact ⟨rfl, rfl⟩

theorem next_own (hI : Inv s) (hT : Tables s) (he : Edge cfg (s.cpu m).on (s.cpu m).pc op pc)
    (hen : op.Enabled cfg s m) (m' : M) (p : Fin n)
    (hon : ((op.next cfg s m pc).cpu m').on = some p) :
    ((op.next cfg s m pc).cpu m').Own p ((op.next cfg s m pc).proc p) := by
  rcases next_on_cases he hon with ⟨hon', hst⟩ | ⟨rfl, h1, h2, rfl⟩
  · obtain ⟨e1, e2, e3⟩ := hI.executed he hen hon'
    obtain ⟨hk, _, _, ht⟩ := next_record he p e1 e2
    have ht := ht e3
    obtain ⟨o1, o2, o3⟩ := hT.own m' p hon'
    by_cases hm : m' = m
    · subst hm
      have hst := hst rfl
      by_cases hq : Edge.Quiet op
      · obtain ⟨q1, q2, q3, _⟩ := hI.quiet he hen hq
        obtain ⟨r1, r2⟩ := next_quiet cfg s m' pc hq
        unfold Cpu.Own
        rw [next_pc, r1, r2, hk]
        refine ⟨o1, fun h => absurd (Pc.returns_user h) q2, fun r hr => ?_⟩
        exact ⟨fun _ => (o3 r hr).1 q1, fun h => absurd h q2⟩
      · cases op with
        | load q r => exact nomatch he.of_load.1.symm.trans hon'
        | kernel => exact nomatch he.of_kernel.1.symm.trans hon'
        | prepareReturn q =>
          obtain ⟨h1, h2, rfl⟩ := he.of_prepareReturn
          obtain rfl : q = p := Option.some.inj (h1.symm.trans hon')
          have hrec : ((Op.prepareReturn q).next cfg s m' .ret).proc q =
              { s.proc q with tf := ((s.cpu m').satp, (s.proc q).kstack) } :=
            Function.update_self _ _ _
          rw [next_cpu, hrec]
          have hsatp : ∀ r, (s.proc q).kpagetable = some r → (s.cpu m').satp = .kpt r :=
            fun r hr => (o3 r hr).1 (by rw [h2]; exact nofun)
          refine ⟨o1, nofun, fun r hr => ⟨fun _ => hsatp r hr, fun _ => ?_⟩⟩
          show ((s.cpu m').satp, (s.proc q).kstack) = _
          rw [hsatp r hr, (hT.live q (hT.born m' q hon')).2]
        | userret q =>
          obtain ⟨h1, h2, rfl⟩ := he.of_userret
          obtain rfl : q = p := Option.some.inj (h1.symm.trans hon')
          have hcpu : ((Op.userret q).next cfg s m' .user).cpu m' =
              { s.cpu m' with satp := .user q, pc := .user } := next_setCpu rfl rfl
          have ht := ht nofun
          rw [hcpu]
          refine ⟨o1, fun _ => rfl, fun r hr => ⟨fun h => absurd rfl h, fun _ => ?_⟩⟩
          rw [ht]
          exact (o3 r (hk ▸ hr)).2 (by rw [h2]; trivial)
        | uservec q =>
          obtain ⟨h1, h2, rfl⟩ := he.of_uservec
          obtain rfl : q = p := Option.some.inj (h1.symm.trans hon')
          have hcpu : ((Op.uservec q).next cfg s m' (.kern false)).cpu m' =
              { s.cpu m' with satp := (s.proc q).tf.1, stack := (s.proc q).tf.2,
                              pc := .kern false } := next_setCpu rfl rfl
          obtain ⟨r, hr⟩ := (hT.live q (hT.born m' q hon')).1
          have htf := (o3 r hr).2 (by rw [h2]; trivial)
          rw [hcpu, htf]
          refine ⟨rfl, nofun, fun r' hr' => ⟨fun _ => ?_, fun h => h.elim⟩⟩
          rw [hk, hr] at hr'
          cases hr'
          rfl
        | _ => first | exact hst.elim | exact (hq trivial).elim
    · have hne : op ≠ .prepareReturn p := by
        rintro rfl
        exact hm (hI.one m' m p hon' he.of_prepareReturn.1)
      unfold Cpu.Own
      rw [next_cpu_ne hm, hk, ht hne]
      exact ⟨o1, o2, o3⟩
  · -- the scheduler has loaded the table of the process it starts
    have hne : (Op.swtchIn p pc : Op n C K R).target ≠ some p := nofun
    obtain ⟨hoff, hrun⟩ := hI.started m' p h1 (by rw [h2]; rfl)
    have hpc : (s.proc p).pc = pc := hen
    obtain ⟨hret, hborn⟩ := (hI.parked p hoff).not_returns hrun
    rw [hpc] at hret
    have hcpu : ((Op.swtchIn p pc).next cfg s m' pc).cpu m' =
        { s.cpu m' with on := some p, stack := (s.proc p).sp, pc := pc } := next_setCpu rfl rfl
    have hidle := (hT.idle m' h1).2
    rw [h2] at hidle
    obtain ⟨r, hr, hsatp⟩ := hidle
    rw [hcpu, next_proc_ne hne]
    refine ⟨hT.sp p hoff hborn, fun h => absurd (Pc.returns_user h) hret, fun r' hr' => ?_⟩
    rw [hr] at hr'
    cases hr'
    exact ⟨fun _ => hsatp, fun h => absurd h hret⟩

theorem next_idle (hI : Inv s) (hT : Tables s) (he : Edge cfg (s.cpu m).on (s.cpu m).pc op pc)
    (hen : op.Enabled cfg s m) (m' : M) (hon : ((op.next cfg s m pc).cpu m').on = none) :
    ((op.next cfg s m pc).cpu m').Idle (op.next cfg s m pc).proc := by
  by_cases hm : m' = m
  · subst hm
    by_cases hq : Edge.Quiet op
    · have hon' : (s.cpu m').on = none := by
        rw [next_on_eq] at hon
        · exact hon
        · cases op <;> trivial
      obtain ⟨_, _, q3, q4⟩ := hI.quiet he hen hq
      obtain ⟨r1, r2⟩ := next_quiet cfg s m' pc hq
      obtain ⟨i1, i2⟩ := hT.idle m' hon'
      rw [q4 hon'] at i2
      unfold Cpu.Idle
      rw [next_pc, r1, r2, q3]
      exact ⟨i1, i2⟩
    · cases op with
      | load q r =>
        obtain ⟨h1, _, rfl⟩ := he.of_load
        have hcpu : ((Op.load q r).next cfg s m' (.schedGo q)).cpu m' =
            { s.cpu m' with satp := .kpt r, pc := .schedGo q } := next_setCpu rfl rfl
        rw [hcpu]
        exact ⟨(hT.idle m' h1).1, r, hen, rfl⟩
      | kernel =>
        obtain ⟨h1, h2⟩ := he.of_kernel
        have hcpu : ((Op.kernel).next cfg s m' pc).cpu m' =
            { s.cpu m' with satp := .kernel, pc := pc } := next_setCpu rfl rfl
        unfold Cpu.Idle
        rw [hcpu]
        dsimp only
        rw [h2]
        exact ⟨(hT.idle m' h1).1, rfl⟩
      | swtchOut q b =>
        obtain ⟨h1, rfl, _⟩ := he.of_swtchOut
        have hcpu : ((Op.swtchOut q b).next cfg s m' (.schedBack q)).cpu m' =
            { s.cpu m' with on := none, stack := .boot, pc := .schedBack q } := next_setCpu rfl rfl
        have hrec : ((Op.swtchOut q b).next cfg s m' (.schedBack q)).proc q =
            { s.proc q with sp := (s.cpu m').stack, pc := b } := Function.update_self _ _ _
        obtain ⟨r, hr⟩ := (hT.live q (hT.born m' q h1)).1
        rw [hcpu]
        refine ⟨rfl, r, by rw [hrec]; exact hr, ?_⟩
        exact ((hT.own m' q h1).2.2 r hr).1 he.swtchOut_not_user.1
      | swtchIn q b =>
        rw [next_on] at hon
        cases hon
      | prepareReturn q =>
        rw [next_on] at hon
        exact nomatch he.of_prepareReturn.1.symm.trans hon
      | userret q =>
        rw [next_on] at hon
        exact nomatch he.of_userret.1.symm.trans hon
      | uservec q =>
        rw [next_on] at hon
        exact nomatch he.of_uservec.1.symm.trans hon
      | _ => exact (hq trivial).elim
  · rw [next_cpu_ne hm] at hon ⊢
    obtain ⟨i1, i2⟩ := hT.idle m' hon
    refine ⟨i1, ?_⟩
    cases hl : (s.cpu m').pc.loaded with
    | none =>
      rw [hl] at i2
      exact i2
    | some i =>
      rw [hl] at i2
      obtain ⟨r, hr, hsatp⟩ := i2
      obtain ⟨e1, e2⟩ := hI.locked he (Pc.lock_of_loaded hl _) hm
      exact ⟨r, by rw [(next_record he i e1 e2).1]; exact hr, hsatp⟩

theorem tables_step (hI : Inv s) (hT : Tables s) {l : M × Option (Fin n)} {s' : State n M C K R}
    (h : Step cfg s l s') : Tables s' := by
  obtain ⟨op, pc, he, hen, _, rfl⟩ := h
  exact
    { inj := next_inj hT he hen
      live := next_live hT he
      born := next_born hI hT he hen
      sp := next_sp hT he
      own := next_own hI hT he hen
      idle := next_idle hI hT he hen }

theorem tables_run {r : R} {pid : ℤ} {cond : Bool} {ls : List (M × Option (Fin n))}
    (h : Run (Step cfg) (init cfg r pid cond) ls s) : Inv s ∧ Tables s :=
  h.inv_state (I := fun s => Inv s ∧ Tables s) ⟨inv_init r pid cond, tables_init r pid cond⟩
    fun _ _ _ hI hs => ⟨inv_step hI.1 hs, tables_step hI.1 hI.2 hs⟩

/-- What `freeproc` is applied to is in use nowhere. -/
theorem free_unused (hI : Inv s) (hT : Tables s) {q : Fin n} {s' : State n M C K R}
    (h : Step cfg s (m, some q) s') (m' : M) : (s.cpu m').stack ≠ .kstack q ∧
      ∀ r, (s.proc q).kpagetable = some r → (s.cpu m').satp ≠ .kpt r := by
  obtain ⟨op, pc, he, hen, hfree, _⟩ := h
  cases op with
  | free q' g =>
    obtain rfl : q = q' := Option.some.inj hfree
    have hoff := hI.free_off he hen
    cases hon : (s.cpu m').on with
    | some p =>
      have hne : p ≠ q := by
        rintro rfl
        exact hoff m' hon
      obtain ⟨o1, o2, o3⟩ := hT.own m' p hon
      refine ⟨fun h => hne (Stack.kstack.inj (o1.symm.trans h)), fun r hr h => ?_⟩
      by_cases hu : (s.cpu m').pc = .user
      · exact nomatch (o2 hu).symm.trans h
      · obtain ⟨r', hr'⟩ := (hT.live p (hT.born m' p hon)).1
        obtain rfl : r' = r := Satp.kpt.inj (((o3 r' hr').1 hu).symm.trans h)
        exact hne (hT.inj p q r' hr' hr)
    | none =>
      obtain ⟨i1, i2⟩ := hT.idle m' hon
      refine ⟨fun h => (nomatch i1.symm.trans h), fun r hr h => ?_⟩
      cases hl : (s.cpu m').pc.loaded with
      | none =>
        rw [hl] at i2
        exact nomatch i2.symm.trans h
      | some i =>
        -- the scheduler holds the lock of the process whose table it has loaded
        rw [hl] at i2
        obtain ⟨r', hr', hsatp⟩ := i2
        obtain rfl : r' = r := Satp.kpt.inj (hsatp.symm.trans h)
        obtain rfl := hT.inj i q r' hr' hr
        obtain rfl := hI.lock_unique (Pc.lock_of_loaded hl _) he.of_free.2.1
        obtain ⟨p, hp⟩ := he.of_free.1
        exact nomatch hon.symm.trans hp
  | _ => cases hfree

theorem run_next {s0 : State n M C K R} {ls : List (M × Option (Fin n))}
    (h : Run (Step cfg) s0 ls s) (m : M) (op : Op n C K R) (pc : Pc n C K)
    (he : Edge cfg (s.cpu m).on (s.cpu m).pc op pc) (hen : op.Enabled cfg s m) :
    Run (Step cfg) s0 (ls ++ [(m, op.frees)]) (op.next cfg s m pc) :=
  h.snoc ⟨op, pc, he, hen, rfl, rfl⟩

/-- **One CPU for a process.** No two CPUs execute it, no scheduler is about to switch to it while
    one does, and that one has its lock unless it is `RUNNING`. -/
theorem one_cpu {r : R} {pid cond ls} (h : Run (Step cfg) (init cfg r pid cond) ls s)
    {m : M} {p : Fin n} (hon : (s.cpu m).on = some p) :
    (∀ m', (s.cpu m').on = some p → m' = m) ∧
    (∀ m', (s.cpu m').on = none → ¬(s.cpu m').pc.starts p) ∧
    ((s.proc p).state ≠ .running → s.plock p = some m) := by
  have hI := inv_run h
  exact ⟨fun m' h' => hI.one m' m p h' hon, fun m' h' hp => (hI.started m' p h' hp).1 m hon,
    fun hs => (hI.lock m p).mpr (hI.locks hon hs)⟩

theorem one_cpu_first : ∃ ls, ∃ s : State 1 Bool Unit Unit Unit,
    Run (Step ⟨(), (), (), 0⟩) (init ⟨(), (), (), 0⟩ () 1 false) ls s ∧ (s.cpu true).on = some 0 ∧
      (s.cpu false).on ≠ some 0 := by
  have h0 : Run (Step ⟨(), (), (), 0⟩) _ []
      (init ⟨(), (), (), 0⟩ () 1 false : State 1 Bool Unit Unit Unit) := .nil
  have h1 := run_next h0 true _ _ (.schedAcquire 0) rfl
  have h2 := run_next h1 true _ _ (.schedRun 0) rfl
  have h3 := run_next h2 true _ _ (.schedLoad 0 ()) rfl
  have h4 := run_next h3 true _ _ (.schedSwtch 0 .forkret) rfl
  exact ⟨_, _, h4, rfl, fun h => Bool.false_ne_true ((one_cpu h4 (m := true) rfl).1 false h)⟩

/-- **Kernel page tables.** In every state of every run: kernel code of a process runs on the
    process's kernel page table; the scheduler runs on `kernel_pagetable`, outside the window
    around `swtch`; the trapframe of a process in user mode names its own page table and stack;
    and a step that frees a process frees neither a page table nor a stack that is in use. -/
theorem kernel_page_tables (cfg : Cfg n C K) (r : R) (pid : ℤ) (cond : Bool)
    (ls : List (M × Option (Fin n))) (s : State n M C K R)
    (h : Run (Step cfg) (init cfg r pid cond) ls s) :
    (∀ m p, (s.cpu m).on = some p → (s.cpu m).pc ≠ .user →
      ∃ r, (s.proc p).kpagetable = some r ∧ (s.cpu m).satp = .kpt r) ∧
    (∀ m, (s.cpu m).on = none →
      (∀ i, (s.cpu m).pc ≠ .schedGo i ∧ (s.cpu m).pc ≠ .schedBack i) → (s.cpu m).satp = .kernel) ∧
    (∀ m p, (s.cpu m).on = some p → (s.cpu m).pc = .user →
      ∃ r, (s.proc p).kpagetable = some r ∧ (s.proc p).kstack = .kstack p ∧
        (s.proc p).tf = (.kpt r, .kstack p)) ∧
    (∀ m q s', Step cfg s (m, some q) s' → ∀ m', (s.cpu m').stack ≠ .kstack q ∧
        ∀ r, (s.proc q).kpagetable = some r → (s.cpu m').satp ≠ .kpt r) := by
  obtain ⟨hI, hT⟩ := tables_run h
  refine ⟨fun m p hon hpc => ?_, fun m hon hpc => ?_, fun m p hon hpc => ?_,
    fun m q s' hs => free_unused hI hT hs⟩
  · obtain ⟨r, hr⟩ := (hT.live p (hT.born m p hon)).1
    exact ⟨r, hr, ((hT.own m p hon).2.2 r hr).1 hpc⟩
  · have hidle := (hT.idle m hon).2
    have hl : (s.cpu m).pc.loaded = none := by
      cases h : (s.cpu m).pc with
      | schedGo i => exact absurd h (hpc i).1
      | schedBack i => exact absurd h (hpc i).2
      | _ => rfl
    rw [hl] at hidle
    exact hidle
  · obtain ⟨⟨r, hr⟩, hk⟩ := hT.live p (hT.born m p hon)
    refine ⟨r, hr, hk, ((hT.own m p hon).2.2 r hr).2 ?_⟩
    rw [hpc]
    trivial

end Step

/-- `fork` in the first process: the slot that it has claimed is freed again. -/
theorem kernel_page_tables_fork :
    ∃ (ls : List (Unit × Option (Fin 2))) (s s' : State 2 Unit Unit Unit Bool),
      Run (Step ⟨(), (), (), 0⟩) (init ⟨(), (), (), 0⟩ false 1 false) ls s ∧
        Step ⟨(), (), (), 0⟩ s ((), some 1) s' ∧ (s.proc 1).kpagetable = some true ∧
        (s.cpu ()).on = some 0 ∧ (s.cpu ()).satp = .kpt false ∧ (s.cpu ()).satp ≠ .kpt true := by
  have h0 : Run (Step ⟨(), (), (), 0⟩) (init ⟨(), (), (), 0⟩ false 1 false) []
      (init ⟨(), (), (), 0⟩ false 1 false : State 2 Unit Unit Unit Bool) := .nil
  have h1 := run_next h0 () _ _ (.schedAcquire 0) rfl
  have h2 := run_next h1 () _ _ (.schedRun 0) rfl
  have h3 := run_next h2 () _ _ (.schedLoad 0 false) rfl
  have h4 := run_next h3 () _ _ (.schedSwtch 0 .forkret) rfl
  have h5 := run_next h4 () _ _ (.forkret 0) rfl
  have h6 := run_next h5 () _ _ (.fork 0) trivial
  have h7 := run_next h6 () _ _ (.forkAcquire 0 0) rfl
  have h8 := run_next h7 () _ _ (.forkTaken 0 0) nofun
  have h9 := run_next h8 () _ _ (.forkNext 0 0) rfl
  have h10 := run_next h9 () _ _ (.forkAcquire 0 1) rfl
  have h11 := run_next h10 () _ _ (.forkFound 0 1 2) rfl
  have h12 := run_next h11 () _ _ (.forkAlloc 0 1 true) (Fin.forall_fin_two.mpr ⟨nofun, nofun⟩)
  have hfree := (kernel_page_tables _ _ _ _ _ _ h12).2.2.2 () 1 _
    ⟨_, _, .forkUndo 0 1, trivial, rfl, rfl⟩
  exact ⟨_, _, _, h12, ⟨_, _, .forkUndo 0 1, trivial, rfl, rfl⟩, rfl, rfl, rfl,
    (hfree ()).2 true rfl⟩

end Xv6.Sched
