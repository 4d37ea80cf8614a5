/-
  The family invariant.

  `Kin` is what holds of the process table between any two steps: who holds which lock, which
  slots have a living process, and that every process but the first has a living parent, unless
  the fork that makes it has not come to set the link. It is shown step by step from the operation
  of the step.
-/
import Xv6.Family.Edges

namespace Xv6.Family

open Lib Function Option Pc
open Process (ProcState nextPid)

variable {n : ℕ}

/-! ## The table after a step -/

/-- The operation, and the thread at its new position. -/
def Op.next (init : Fin n) (t : Table n) (p : Fin n) (op : Op n) (pc : Pc n) : Table n :=
  (op.apply init t p).setPc p pc

section

variable {init : Fin n} {t : Table n} {p q i : Fin n} {op : Op n} {pc pc' : Pc n}

theorem next_pc_self : (op.next init t p pc').pc p = pc' := update_self ..

/-- The slot whose thread the operation makes or removes. -/
def Op.seat : Op n → Option (Fin n)
  | .take i | .drop i => some i
  | _ => none

theorem next_pc_ne (hq : q ≠ p) (hs : op.seat ≠ some q) : (op.next init t p pc').pc q = t.pc q := by
  refine (update_of_ne hq ..).trans ?_
  cases op with
  | take i | drop i => exact update_of_ne (fun h => hs (congrArg some h.symm)) ..
  | _ => rfl

/-- The slot whose record the operation writes. -/
def Op.target (p : Fin n) : Op n → Option (Fin n)
  | .take i | .drop i | .link i | .start i | .adopt i | .wake _ i | .collect i => some i
  | .zombie _ | .rest _ | .tidy => some p
  | _ => none

theorem next_proc_ne (hi : op.target p ≠ some i) : (op.next init t p pc').proc i = t.proc i := by
  cases op with
  | take k | drop k | link k | start k | adopt k | wake c k | collect k =>
    exact update_of_ne (fun h => hi (congrArg some h.symm)) ..
  | zombie st | rest m | tidy => exact update_of_ne (fun h => hi (congrArg some h.symm)) ..
  | _ => rfl

theorem next_plock (hop : Edge.Plain op) : (op.next init t p pc').plock = t.plock := by
  cases op with
  | lock | unlock => exact hop.elim
  | _ => rfl

theorem next_waitLock (h1 : op ≠ .waitAcquire) (h2 : op ≠ .waitRelease) (h3 : ∀ r, op ≠ .ret r) :
    (op.next init t p pc').waitLock = t.waitLock := by
  cases op with
  | waitAcquire => exact absurd rfl h1
  | waitRelease => exact absurd rfl h2
  | ret r => exact absurd rfl (h3 r)
  | _ => rfl

end

/-! ## The invariant -/

structure Kin (init : Fin n) (t : Table n) : Prop where
  waits : ∀ p, t.waitLock = some p ↔ (t.pc p).waits = true
  locks : ∀ p i, t.plock i = some p ↔ (t.pc p).lock p = some i
  live : ∀ i, (t.pc i).live ↔ (t.proc i).state ≠ .unused ∧ (t.proc i).state ≠ .zombie
  gone : ∀ i, (t.proc i).state = .unused → t.pc i = .gone
  used : ∀ i, (t.proc i).state = .used → t.pc i = .away .yield
  child : ∀ p i, (t.pc p).child = some i → (t.proc i).state = .used
  one : ∀ p q i, (t.pc p).child = some i → (t.pc q).child = some i → p = q
  window : ∀ p i, (t.pc p).window = some i → (t.proc i).parent = none
  /-- A parent is alive and has run. -/
  kids : ∀ i q, (t.proc i).parent = some q →
    (t.proc i).state ≠ .unused ∧ (t.pc q).live ∧ (t.proc q).state ≠ .used
  parents : ∀ i, (t.proc i).state ≠ .unused → i ≠ init → (t.proc i).parent = none →
    ∃ p, (t.pc p).window = some i
  swept : ∀ p j, (t.pc p).swept j → (t.proc j).parent ≠ some p
  watched : ∀ p k, (t.pc p).watched = some k → (t.proc k).parent = some p
  init : (t.pc init).live ∧ ¬(t.pc init).exits ∧ (t.proc init).state ≠ .used

/-- The positions of a slot whose thread has not started. -/
def Pc.Idle (pc : Pc n) : Prop := pc = .gone ∨ pc = .away .yield

theorem Pc.Idle.facts {pc : Pc n} (h : pc.Idle) (p : Fin n) :
    pc.waits = false ∧ pc.lock p = none ∧ pc.child = none ∧ pc.window = none ∧ pc.watched = none ∧
      (∀ j, ¬pc.swept j) ∧ ¬pc.exits := by
  rcases h with rfl | rfl <;> exact ⟨rfl, rfl, rfl, rfl, rfl, fun _ h => h, fun h => h⟩

theorem boot_kin (init : Fin n) : Kin init (boot init) := by
  have hpc : ∀ i, i ≠ init → (boot init).pc i = .gone := fun i hi => if_neg hi
  have hproc : ∀ i, i ≠ init → (boot init).proc i = .unused := fun i hi => if_neg hi
  have hpc0 : (boot init).pc init = .away .yield := if_pos rfl
  have hproc0 : (boot init).proc init = ⟨.runnable, none, false, 0, 1, none, 0⟩ := if_pos rfl
  have hidle : ∀ i, ((boot init).pc i).Idle := by
    intro i
    by_cases hi : i = init
    · rw [hi, hpc0]
      exact .inr rfl
    · exact .inl (hpc i hi)
  have hnone : ∀ i, ((boot init).proc i).parent = none := by
    intro i
    by_cases hi : i = init
    · rw [hi, hproc0]
    · rw [hproc i hi]
      rfl
  have hstate : ∀ i, ((boot init).proc i).state = if i = init then .runnable else .unused := by
    intro i
    by_cases hi : i = init
    · rw [hi, hproc0, if_pos rfl]
    · rw [hproc i hi, if_neg hi]
      rfl
  refine ⟨fun p => ?_, fun p i => ?_, fun i => ?_, fun i hi => ?_, fun i hi => ?_, fun p i hi => ?_,
    fun p _ i hi => ?_, fun p i hi => ?_, fun i q hi => ?_, fun i hi h0 => ?_, fun p j hj => ?_,
    fun p k hk => ?_, ?_⟩
  · rw [((hidle p).facts p).1]
    exact ⟨nofun, nofun⟩
  · rw [((hidle p).facts p).2.1]
    exact ⟨nofun, nofun⟩
  · by_cases hi : i = init
    · rw [hi, hpc0, hproc0]
      exact ⟨fun _ => ⟨nofun, nofun⟩, fun _ => trivial⟩
    · rw [hpc i hi, hproc i hi]
      exact ⟨fun h => h.elim, fun h => absurd rfl h.1⟩
  · by_cases h0 : i = init
    · rw [hstate, if_pos h0] at hi
      cases hi
    · exact hpc i h0
  · rw [hstate] at hi
    split at hi <;> cases hi
  · rw [((hidle p).facts p).2.2.1] at hi
    cases hi
  · rw [((hidle p).facts p).2.2.1] at hi
    cases hi
  · exact hnone i
  · rw [hnone] at hi
    cases hi
  · rw [hstate, if_neg h0] at hi
    exact absurd rfl hi
  · rw [hnone]
    exact nofun
  · rw [((hidle p).facts p).2.2.2.2.1] at hk
    cases hk
  · rw [hpc0, hproc0]
    exact ⟨trivial, fun h => h, nofun⟩

/-! ## Locks -/

section

variable {init : Fin n} {t t' : Table n} {p q i : Fin n} {op : Op n} {pc pc' : Pc n}

section

variable (h : Kin init t) (he : Edge init t p (t.pc p) op pc')

include h he

/-- The slot whose thread a step makes or removes. -/
theorem Kin.seat (hs : op.seat = some i) :
    i ≠ p ∧ (t.pc i).Idle ∧ ((op.next init t p pc').pc i).Idle := by
  generalize hpc : t.pc p = pc at he
  cases he with
  | forkTake k hk =>
    obtain rfl : k = i := some.inj hs
    have hg := h.gone k hk
    have hne : k ≠ p := by
      rintro rfl
      rw [hg] at hpc
      cases hpc
    refine ⟨hne, .inl hg, .inr ?_⟩
    exact (update_of_ne hne ..).trans (update_self ..)
  | forkDrop k =>
    obtain rfl : k = i := some.inj hs
    have hg := h.used k (h.child p k (by rw [hpc]; rfl))
    have hne : k ≠ p := by
      rintro rfl
      rw [hg] at hpc
      cases hpc
    refine ⟨hne, .inr hg, .inl ?_⟩
    exact (update_of_ne hne ..).trans (update_self ..)
  | _ => cases hs

/-- What another thread's position determines stays. -/
theorem Kin.other (hq : q ≠ p) : ((op.next init t p pc').pc q).waits = (t.pc q).waits ∧
      ((op.next init t p pc').pc q).lock q = (t.pc q).lock q ∧
      ((op.next init t p pc').pc q).child = (t.pc q).child ∧
      ((op.next init t p pc').pc q).window = (t.pc q).window ∧
      ((op.next init t p pc').pc q).watched = (t.pc q).watched ∧
      (∀ j, ((op.next init t p pc').pc q).swept j → (t.pc q).swept j) ∧
      (((op.next init t p pc').pc q).exits → (t.pc q).exits) := by
  by_cases hs : op.seat = some q
  · obtain ⟨_, h1, h2⟩ := h.seat he hs
    obtain ⟨a1, a2, a3, a4, a5, _, _⟩ := h1.facts q
    obtain ⟨b1, b2, b3, b4, b5, b6, b7⟩ := h2.facts q
    exact ⟨b1.trans a1.symm, b2.trans a2.symm, b3.trans a3.symm, b4.trans a4.symm, b5.trans a5.symm,
      fun j hj => absurd hj (b6 j), fun hx => absurd hx b7⟩
  · rw [next_pc_ne hq hs]
    exact ⟨rfl, rfl, rfl, rfl, rfl, fun _ h => h, fun h => h⟩

theorem Kin.locks_next (hen : op.Enabled t) (q i : Fin n) :
    (op.next init t p pc').plock i = some q ↔
      ((op.next init t p pc').pc q).lock q = some i := by
  have hpos : ((op.next init t p pc').pc q).lock q = if q = p then pc'.lock p else
      (t.pc q).lock q := by
    by_cases hq : q = p
    · rw [hq, next_pc_self, if_pos rfl]
    · rw [(h.other he hq).2.1, if_neg hq]
  rw [hpos]
  have hplain : Edge.Plain op → ((op.next init t p pc').plock i = some q ↔
      (if q = p then pc'.lock p else (t.pc q).lock q) = some i) := by
    intro hop
    rw [next_plock hop, h.locks]
    by_cases hq : q = p
    · rw [if_pos hq, he.lock_of_plain hop, hq]
    · rw [if_neg hq]
  cases op with
  | lock k =>
    obtain ⟨h1, h2⟩ := he.lock_of_lock
    have hfree : ∀ q, (t.pc q).lock q ≠ some k := fun q hq => by
      have := (h.locks q k).mpr hq
      rw [show t.plock k = none from hen] at this
      cases this
    show update t.plock k (some p) i = some q ↔ _
    by_cases hi : i = k
    · rw [hi, update_self]
      by_cases hq : q = p
      · rw [if_pos hq, h2, hq]
        exact ⟨fun _ => rfl, fun _ => rfl⟩
      · rw [if_neg hq]
        exact ⟨fun he => absurd (some.inj he).symm hq, fun he => absurd he (hfree q)⟩
    · rw [update_of_ne hi, h.locks]
      by_cases hq : q = p
      · rw [if_pos hq, h2, hq, h1]
        exact ⟨nofun, fun he => absurd (some.inj he).symm hi⟩
      · rw [if_neg hq]
  | unlock k =>
    obtain ⟨h1, h2⟩ := he.lock_of_unlock
    have hheld := (h.locks p k).mpr h1
    show update t.plock k none i = some q ↔ _
    by_cases hi : i = k
    · rw [hi, update_self]
      split
      · rw [h2]
        exact ⟨nofun, nofun⟩
      · next hq =>
        refine ⟨nofun, fun he => ?_⟩
        have := (h.locks q k).mpr he
        rw [hheld] at this
        exact absurd (some.inj this).symm hq
    · rw [update_of_ne hi, h.locks]
      by_cases hq : q = p
      · rw [if_pos hq, h2, hq, h1]
        exact ⟨fun he => absurd (some.inj he).symm hi, nofun⟩
      · rw [if_neg hq]
  | _ => exact hplain trivial

theorem Kin.waits_next (hen : op.Enabled t) (q : Fin n) : (op.next init t p pc').waitLock = some q ↔
      ((op.next init t p pc').pc q).waits = true := by
  have hpos : ((op.next init t p pc').pc q).waits = if q = p then pc'.waits else
      (t.pc q).waits := by
    by_cases hq : q = p
    · rw [hq, next_pc_self, if_pos rfl]
    · rw [(h.other he hq).1, if_neg hq]
  -- the thread that gives the lock up held it
  have hleave : (t.pc p).waits = true → pc'.waits = false →
      (none = some q ↔ (if q = p then pc'.waits else (t.pc q).waits) = true) := by
    intro h1 h2
    split
    · rw [h2]
      exact ⟨nofun, nofun⟩
    · next hq =>
      refine ⟨nofun, fun he => ?_⟩
      have := ((h.waits q).mpr he).symm.trans ((h.waits p).mpr h1)
      exact absurd (some.inj this) hq
  have hkeep : op ≠ .waitAcquire → op ≠ .waitRelease → (∀ r, op ≠ .ret r) →
      ((op.next init t p pc').waitLock = some q ↔ (if q = p then pc'.waits else (t.pc q).waits) =
        true) := by
    intro h1 h2 h3
    rw [next_waitLock h1 h2 h3, h.waits]
    by_cases hq : q = p
    · rw [if_pos hq, hq, he.waits_of_else h1 h2 h3]
    · rw [if_neg hq]
  rw [hpos]
  cases op with
  | waitAcquire =>
    obtain ⟨h1, h2⟩ := he.waits_of_acquire
    split
    · next hq =>
      rw [h2, hq]
      exact ⟨fun _ => rfl, fun _ => rfl⟩
    · next hq =>
      refine ⟨fun he => absurd (some.inj he).symm hq, fun he => ?_⟩
      have := (h.waits q).mpr he
      rw [show t.waitLock = none from hen] at this
      cases this
  | waitRelease =>
    obtain ⟨h1, h2⟩ := he.waits_of_release
    exact hleave h1 h2
  | ret r =>
    obtain ⟨h1, h2⟩ := he.waits_of_ret
    exact hleave (by rw [h1]; rfl) (by rw [h2]; rfl)
  | _ => exact hkeep nofun nofun nofun

end

/-! ## Steps that leave the family as it is -/

/-- The record changes at most in its scheduling state, from one of a living process to another. -/
structure Mildly (a b : Proc n) : Prop where
  parent : b.parent = a.parent
  report : b.report = a.report
  state : b.state = a.state ∨ a.state ≠ .unused ∧ a.state ≠ .zombie ∧
    b.state ≠ .unused ∧ b.state ≠ .zombie ∧ b.state ≠ .used

theorem Mildly.refl (a : Proc n) : Mildly a a := ⟨rfl, rfl, .inl rfl⟩

theorem Mildly.set {a : Proc n} {st : ProcState} (h1 : a.state ≠ .unused) (h2 : a.state ≠ .zombie)
    (h : st ≠ .unused ∧ st ≠ .zombie ∧ st ≠ .used) : Mildly a { a with state := st } :=
  ⟨rfl, rfl, .inr ⟨h1, h2, h⟩⟩

theorem Mildly.unused {a b : Proc n} (h : Mildly a b) : b.state = .unused ↔ a.state = .unused := by
  rcases h.state with he | ⟨h1, _, h3, _⟩
  · rw [he]
  · exact ⟨fun h => absurd h h3, fun h => absurd h h1⟩

theorem Mildly.zombie {a b : Proc n} (h : Mildly a b) : b.state = .zombie ↔ a.state = .zombie := by
  rcases h.state with he | ⟨_, h2, _, h4, _⟩
  · rw [he]
  · exact ⟨fun h => absurd h h4, fun h => absurd h h2⟩

theorem Mildly.used {a b : Proc n} (h : Mildly a b) (hb : b.state = .used) : a.state = .used := by
  rcases h.state with he | ⟨_, _, _, _, h5⟩
  · rw [← he]
    exact hb
  · exact absurd hb h5

/-- Thread `p` moves, and the records change mildly. -/
theorem Kin.mild (h : Kin init t) (hw : ∀ q, t'.waitLock = some q ↔ (t'.pc q).waits = true)
    (hl : ∀ q i, t'.plock i = some q ↔ (t'.pc q).lock q = some i)
    (hproc : ∀ i, Mildly (t.proc i) (t'.proc i)) (hpc : ∀ q, q ≠ p → t'.pc q = t.pc q)
    (hmove : t'.pc p = t.pc p ∨ (t.proc p).state ≠ .unused ∧ (t.proc p).state ≠ .used)
    (hlive : (t'.pc p).live ↔ (t.pc p).live) (hwin : (t'.pc p).window = (t.pc p).window)
    (hchild : ∀ i, (t'.pc p).child = some i → (t.pc p).child = some i)
    (hused : ∀ q i, (t'.pc q).child = some i → (t.proc i).state = .used → (t'.proc i).state = .used)
    (hswept : ∀ j, (t'.pc p).swept j → (t.pc p).swept j ∨ (t.proc j).parent ≠ some p)
    (hwatched : ∀ k, (t'.pc p).watched = some k → (t.pc p).watched = some k ∨
      (t.proc k).parent = some p)
    (hexits : (t'.pc p).exits → (t.pc p).exits ∨ p ≠ init) : Kin init t' := by
  have hpos : ∀ q, q = p ∨ t'.pc q = t.pc q := fun q => (Decidable.em (q = p)).imp_right (hpc q)
  have hchild' : ∀ q i, (t'.pc q).child = some i → (t.pc q).child = some i := by
    intro q i hi
    rcases hpos q with rfl | hq
    · exact hchild i hi
    · rw [← hq]
      exact hi
  have hlive' : ∀ q, (t'.pc q).live ↔ (t.pc q).live := by
    intro q
    rcases hpos q with rfl | hq
    · exact hlive
    · rw [hq]
  have hwin' : ∀ q, (t'.pc q).window = (t.pc q).window := by
    intro q
    rcases hpos q with rfl | hq
    · exact hwin
    · rw [hq]
  refine ⟨hw, hl, fun i => ?_, fun i hi => ?_, fun i hi => ?_, fun q i hi => ?_,
    fun q q' i hi hi' => ?_,
    fun q i hi => ?_, fun i q hi => ?_, fun i hi h0 hp => ?_, fun q j hj => ?_, fun q k hk => ?_,
    ?_⟩
  · rw [hlive', h.live, Ne, Ne, Ne, Ne, (hproc i).unused, (hproc i).zombie]
  · have hu := (hproc i).unused.mp hi
    rcases hpos i with rfl | hq
    · rcases hmove with hm | hm
      · rw [hm]
        exact h.gone _ hu
      · exact absurd hu hm.1
    · rw [hq]
      exact h.gone i hu
  · have hu := (hproc i).used hi
    rcases hpos i with rfl | hq
    · rcases hmove with hm | hm
      · rw [hm]
        exact h.used _ hu
      · exact absurd hu hm.2
    · rw [hq]
      exact h.used i hu
  · exact hused q i hi (h.child q i (hchild' q i hi))
  · exact h.one q q' i (hchild' q i hi) (hchild' q' i hi')
  · rw [hwin'] at hi
    rw [(hproc i).parent]
    exact h.window q i hi
  · rw [(hproc i).parent] at hi
    obtain ⟨h1, h2, h3⟩ := h.kids i q hi
    exact ⟨fun hu => h1 ((hproc i).unused.mp hu), (hlive' q).mpr h2, fun hu =>
      h3 ((hproc q).used hu)⟩
  · rw [(hproc i).parent] at hp
    obtain ⟨q, hq⟩ := h.parents i (fun hu => hi ((hproc i).unused.mpr hu)) h0 hp
    exact ⟨q, (hwin' q).trans hq⟩
  · rw [(hproc j).parent]
    rcases hpos q with rfl | hq
    · exact (hswept j hj).elim (h.swept _ j) fun h => h
    · rw [hq] at hj
      exact h.swept q j hj
  · rw [(hproc k).parent]
    rcases hpos q with rfl | hq
    · exact (hwatched k hk).elim (h.watched _ k) fun h => h
    · rw [hq] at hk
      exact h.watched q k hk
  · refine ⟨(hlive' init).mpr h.init.1, fun hx => ?_, fun hu => h.init.2.2 ((hproc init).used hu)⟩
    rcases hpos init with rfl | hq
    · exact (hexits hx).elim h.init.2.1 fun h => h rfl
    · rw [hq] at hx
      exact h.init.2.1 hx

section

variable (h : Kin init t) (he : Edge init t p (t.pc p) op pc')

include h he

/-- A thread that takes a step is past its start. -/
theorem Kin.runs : (t.proc p).state ≠ .unused ∧ (t.proc p).state ≠ .used :=
  ⟨fun hu => he.not_away.1 (h.gone p hu), fun hu => he.not_away.2 _ (h.used p hu)⟩

/-- The record after a mild operation. -/
theorem Kin.mildly (hop : Edge.Mild op) (i : Fin n) :
    Mildly (t.proc i) ((op.next init t p pc').proc i) ∧
      ((t.proc i).state = .used → ((op.next init t p pc').proc i).state = .used ∨
        op = .start i) := by
  by_cases hi : op.target p = some i
  · obtain ⟨hr1, hr2⟩ := h.runs he
    cases op with
    | start k =>
      obtain rfl : k = i := some.inj hi
      rw [show ((Op.start k).next init t p pc').proc k = { t.proc k with state := .runnable } from
        update_self ..]
      have hu : (t.proc k).state = .used := by
        generalize hpc : t.pc p = pc at he
        cases he
        exact h.child p k (by rw [hpc]; rfl)
      exact ⟨.set (by rw [hu]; decide) (by rw [hu]; decide) (by decide), fun _ => .inr rfl⟩
    | wake c k =>
      obtain rfl : k = i := some.inj hi
      rw [show ((Op.wake c k).next init t p pc').proc k = wakeBody c (t.proc k) from update_self ..]
      unfold wakeBody
      split
      · rename_i hs
        refine ⟨.set (by rw [hs.1]; decide) (by rw [hs.1]; decide) (by decide), fun hu => ?_⟩
        rw [hs.1] at hu
        cases hu
      · exact ⟨.refl _, fun h => .inl h⟩
    | rest m =>
      obtain rfl : p = i := some.inj hi
      rw [show ((Op.rest m).next init t p pc').proc p =
        { t.proc p with state := m.state, chan := m.chan p (t.proc p).chan } from update_self ..]
      have hz : (t.proc p).state ≠ .zombie := by
        generalize hpc : t.pc p = pc at he
        cases he
        exact ((h.live p).mp (by rw [hpc]; trivial)).2
      refine ⟨⟨rfl, rfl, .inr ⟨hr1, hz, ?_⟩⟩, fun hu => absurd hu hr2⟩
      cases m <;> exact ⟨nofun, nofun, nofun⟩
    | tidy =>
      obtain rfl : p = i := some.inj hi
      rw [show (Op.tidy.next init t p pc').proc p = { t.proc p with chan := none } from
        update_self ..]
      exact ⟨⟨rfl, rfl, .inl rfl⟩, fun h => .inl h⟩
    | take | drop | link | adopt | zombie | collect => exact hop.elim
    | _ => cases hi
  · rw [next_proc_ne hi]
    exact ⟨.refl _, fun h => .inl h⟩

theorem Kin.run_mild (hen : op.Enabled t) (hop : Edge.Mild op) :
    Kin init (op.next init t p pc') := by
  have hself : (op.next init t p pc').pc p = pc' := next_pc_self
  have hseat : ∀ q, op.seat ≠ some q := by
    intro q hq
    cases op with
    | take i | drop i => exact hop
    | _ => cases hq
  refine h.mild (h.waits_next he hen) (h.locks_next he hen) (fun i => (h.mildly he hop i).1)
    (fun q hq => next_pc_ne hq (hseat q)) (.inr (h.runs he)) ?_ ?_ ?_ ?_ ?_ ?_ ?_
  · rw [hself]
    exact he.live_of_mild hop
  · rw [hself]
    exact he.window_of_mild hop
  · intro i hi
    rw [hself] at hi
    rcases he.child_of_mild hop with hc | ⟨k, _, _, hc⟩
    · rw [← hc]
      exact hi
    · rw [hc] at hi
      cases hi
  · intro q i hi hu
    rcases (h.mildly he hop i).2 hu with hu' | hst
    · exact hu'
    · -- the fork that makes the slot runnable is the one that has taken it
      exfalso
      subst hst
      have hci : (t.pc p).child = some i ∧ pc'.child = none := by
        generalize hpc : t.pc p = pc at he
        cases he
        exact ⟨rfl, rfl⟩
      by_cases hq : q = p
      · rw [hq, hself, hci.2] at hi
        cases hi
      · rw [next_pc_ne hq (hseat q)] at hi
        exact hq (h.one q p i hi hci.1)
  · intro j hj
    rw [hself] at hj
    exact he.swept_of_mild hop hj
  · intro k hk
    rw [hself] at hk
    exact he.watched hk
  · intro hx
    rw [hself] at hx
    exact he.exits hx

end

/-! ## Steps that change the family -/

/-- A position that only the holder of `wait_lock` can have. -/
theorem Pc.waits_of_swept {pc : Pc n} {j : Fin n} (h : pc.swept j) : pc.waits = true := by
  cases pc <;> first | rfl | exact h.elim

theorem Pc.waits_of_watched {pc : Pc n} {k : Fin n} (h : pc.watched = some k) :
    pc.waits = true := by
  cases pc <;> first | rfl | cases h

/-- What positions say of records, when thread `p` moves and slot `i` gets the record `x`. -/
theorem says_next {x : Proc n} {F : Pc n → Fin n → Prop} {R : Fin n → Proc n → Prop}
    (hx : t'.proc i = x)
    (hproc : ∀ j, j ≠ i → t'.proc j = t.proc j) (hpcp : t'.pc p = pc')
    (hF : ∀ q, q ≠ p → ∀ k, F (t'.pc q) k → F (t.pc q) k) (h : ∀ q k, F (t.pc q) k → R q (t.proc k))
    (hnew : ∀ k, F pc' k → (k = i ∧ R p x) ∨ (k ≠ i ∧ F (t.pc p) k))
    (hi : ∀ q, q ≠ p → F (t.pc q) i → R q x) (q k : Fin n) (hk : F (t'.pc q) k) :
    R q (t'.proc k) := by
  by_cases hq : q = p
  · rw [hq, hpcp] at hk
    rw [hq]
    rcases hnew k hk with ⟨rfl, hR⟩ | ⟨hki, hk⟩
    · rw [hx]
      exact hR
    · rw [hproc k hki]
      exact h p k hk
  · have hk := hF q hq k hk
    by_cases hki : k = i
    · rw [hki] at hk ⊢
      rw [hx]
      exact hi q hq hk
    · rw [hproc k hki]
      exact h q k hk

section

variable (h : Kin init t)

include h

/-- Two threads do not hold `wait_lock` at once. -/
theorem Kin.alone (hp : (t.pc p).waits = true) (hq : (t.pc q).waits = true) : q = p :=
  some.inj (((h.waits q).mpr hq).symm.trans ((h.waits p).mpr hp))

/-- Thread `p` changes the record of slot `i`, to `x`. What is to be shown is what depends on the
new record and on the new position. -/
theorem Kin.change (he : Edge init t p (t.pc p) op pc') (hen : op.Enabled t)
    (ht : op.target p = some i) (hs : ∀ k, op.seat = some k → k = i) {x : Proc n}
    (hx : (op.next init t p pc').proc i = x)
    (hlive : ((op.next init t p pc').pc i).live ↔ x.state ≠ .unused ∧ x.state ≠ .zombie)
    (hgone : x.state = .unused → (op.next init t p pc').pc i = .gone)
    (hused : x.state = .used → (op.next init t p pc').pc i = .away .yield)
    (hlivep : i ≠ p → (t.pc p).live ∧ pc'.live)
    (hchild : ∀ k, pc'.child = some k →
      (k = i ∧ x.state = .used ∧ ∀ q, q ≠ p → (t.pc q).child ≠ some i) ∨
      (k ≠ i ∧ (t.pc p).child = some k))
        (hchildi : ∀ q, q ≠ p → (t.pc q).child = some i → x.state = .used)
    (hwin : ∀ k, pc'.window = some k → (k = i ∧ x.parent = none) ∨
      (k ≠ i ∧ (t.pc p).window = some k))
    (hwini : ∀ q, q ≠ p → (t.pc q).window = some i → x.parent = none)
    (hkids : ∀ q, x.parent = some q → x.state ≠ .unused ∧ ((op.next init t p pc').pc q).live ∧
      ((op.next init t p pc').proc q).state ≠ .used)
        (hkidsi : ∀ j, j ≠ i → (t.proc j).parent = some i →
      ((op.next init t p pc').pc i).live ∧ x.state ≠ .used)
    (hpar : x.state ≠ .unused → i ≠ init → x.parent = none →
      pc'.window = some i ∨ ∃ q, q ≠ p ∧ (t.pc q).window = some i)
    (hkeep : ∀ k, k ≠ i → (t.pc p).window = some k → pc'.window = some k)
    (hswept : ∀ j, pc'.swept j → (j = i ∧ x.parent ≠ some p) ∨ (j ≠ i ∧ (t.pc p).swept j))
    (hswepti : ∀ q, q ≠ p → (t.pc q).swept i → x.parent ≠ some q)
    (hwatched : pc'.watched = none)
    (hwatchedi : ∀ q, q ≠ p → (t.pc q).watched = some i → x.parent = some q)
    (hinit : init = i → x.state ≠ .unused ∧ x.state ≠ .zombie ∧ x.state ≠ .used)
    (hinitp : p = init → ¬pc'.exits) : Kin init (op.next init t p pc') := by
  have hw := h.waits_next he hen
  have hl := h.locks_next he hen
  have hother := fun q (hq : q ≠ p) => h.other he hq
  obtain ⟨hr1, hr2⟩ := h.runs he
  generalize hT : op.next init t p pc' = t' at *
  have hpcp : t'.pc p = pc' := hT ▸ next_pc_self
  have hpcq : ∀ q, q ≠ p → q ≠ i → t'.pc q = t.pc q := fun q h1 h2 => by
    rw [← hT]
    exact next_pc_ne h1 fun h => h2 (hs q h)
  have hproc : ∀ j, j ≠ i → t'.proc j = t.proc j := fun j hj => by
    rw [← hT]
    exact next_proc_ne fun h => hj (some.inj (ht.symm.trans h)).symm
  have hsays := fun F R => says_next (F := F) (R := R) hx hproc hpcp
  refine ⟨hw, hl, fun j => ?_, fun j hj => ?_, fun j hj => ?_, ?_, fun q q' k hk hk' => ?_, ?_,
    fun j q hj => ?_, fun j hj h0 hp => ?_, ?_, ?_, ?_⟩
  · by_cases hj : j = i
    · rw [hj, hx]
      exact hlive
    · rw [hproc j hj, ← h.live]
      by_cases hjp : j = p
      · obtain ⟨h1, h2⟩ := hlivep fun h => hj (hjp.trans h.symm)
        rw [hjp, hpcp]
        exact ⟨fun _ => h1, fun _ => h2⟩
      · rw [hpcq j hjp hj]
  · by_cases hji : j = i
    · rw [hji, hx] at hj
      rw [hji]
      exact hgone hj
    · rw [hproc j hji] at hj
      have hjp : j ≠ p := fun h => hr1 (h ▸ hj)
      rw [hpcq j hjp hji]
      exact h.gone j hj
  · by_cases hji : j = i
    · rw [hji, hx] at hj
      rw [hji]
      exact hused hj
    · rw [hproc j hji] at hj
      have hjp : j ≠ p := fun h => hr2 (h ▸ hj)
      rw [hpcq j hjp hji]
      exact h.used j hj
  · exact hsays (fun pc k => pc.child = some k) (fun _ x => x.state = .used)
      (fun q hq k hk => (hother q hq).2.2.1 ▸ hk) h.child
      (fun k hk => (hchild k hk).imp_left fun h => ⟨h.1, h.2.1⟩) hchildi
  · -- the slot that thread `p` fills is filled by no other
    have hmine : ∀ y, y ≠ p → pc'.child = some k → (t'.pc y).child = some k → False := by
      intro y hy hp hc
      rw [(hother y hy).2.2.1] at hc
      rcases hchild k hp with ⟨rfl, _, h1⟩ | ⟨_, h1⟩
      · exact h1 y hy hc
      · exact hy (h.one y p k hc h1)
    by_cases hq : q = p
    · by_cases hq' : q' = p
      · rw [hq, hq']
      · rw [hq, hpcp] at hk
        exact (hmine q' hq' hk hk').elim
    · by_cases hq' : q' = p
      · rw [hq', hpcp] at hk'
        exact (hmine q hq hk' hk).elim
      · rw [(hother q hq).2.2.1] at hk
        rw [(hother q' hq').2.2.1] at hk'
        exact h.one q q' k hk hk'
  · exact hsays (fun pc k => pc.window = some k) (fun _ x => x.parent = none)
      (fun q hq k hk => (hother q hq).2.2.2.1 ▸ hk) h.window hwin hwini
  · by_cases hji : j = i
    · rw [hji, hx] at hj ⊢
      exact hkids q hj
    · rw [hproc j hji] at hj ⊢
      obtain ⟨h1, h2, h3⟩ := h.kids j q hj
      refine ⟨h1, ?_⟩
      by_cases hqi : q = i
      · rw [hqi] at hj ⊢
        rw [hx]
        exact hkidsi j hji hj
      · rw [hproc q hqi]
        refine ⟨?_, h3⟩
        by_cases hqp : q = p
        · rw [hqp, hpcp]
          exact (hlivep fun h => hqi (hqp.trans h.symm)).2
        · rw [hpcq q hqp hqi]
          exact h2
  · have hcarry : ∀ q, q ≠ p → (t.pc q).window = some j → ∃ q, (t'.pc q).window = some j :=
      fun q h1 h2 =>
      ⟨q, by rw [(hother q h1).2.2.2.1]; exact h2⟩
    by_cases hji : j = i
    · rw [hji] at hj hp h0 hcarry ⊢
      rw [hx] at hj hp
      rcases hpar hj h0 hp with h1 | ⟨q, h1, h2⟩
      · exact ⟨p, by rw [hpcp]; exact h1⟩
      · exact hcarry q h1 h2
    · rw [hproc j hji] at hj hp
      obtain ⟨q, hq⟩ := h.parents j hj h0 hp
      by_cases hqp : q = p
      · rw [hqp] at hq
        exact ⟨p, by rw [hpcp]; exact hkeep j hji hq⟩
      · exact hcarry q hqp hq
  · exact hsays (fun pc k => pc.swept k) (fun q x => x.parent ≠ some q)
      (fun q hq => (hother q hq).2.2.2.2.2.1)
      h.swept hswept hswepti
  · exact hsays (fun pc k => pc.watched = some k) (fun q x => x.parent = some q)
      (fun q hq k hk => (hother q hq).2.2.2.2.1 ▸ hk) h.watched
      (fun k hk => by rw [hwatched] at hk; cases hk) hwatchedi
  · refine ⟨?_, fun hx' => ?_, ?_⟩
    · by_cases h0 : init = i
      · rw [h0]
        exact hlive.mpr ⟨(hinit h0).1, (hinit h0).2.1⟩
      · by_cases hp : init = p
        · rw [hp, hpcp]
          exact (hlivep fun h => h0 (hp.trans h.symm)).2
        · rw [hpcq init hp h0]
          exact h.init.1
    · by_cases hp : init = p
      · rw [hp, hpcp] at hx'
        exact hinitp hp.symm hx'
      · exact h.init.2.1 ((hother init hp).2.2.2.2.2.2 hx')
    · by_cases h0 : init = i
      · rw [h0, hx]
        exact (hinit h0).2.2
      · rw [hproc init h0]
        exact h.init.2.2

/-- `allocproc` takes a slot. -/
theorem Kin.run_take (hpc : t.pc p = .forkLook i) (hu : (t.proc i).state = .unused) :
    Kin init ((Op.take i).next init t p (.forkMade i)) := by
  have he : Edge init t p (t.pc p) (.take i) (.forkMade i) := hpc ▸ .forkTake i hu
  have hip : i ≠ p := (h.seat he rfl).1
  have hpci : ((Op.take i).next init t p (.forkMade i)).pc i = .away .yield :=
    (update_of_ne hip ..).trans (update_self ..)
  have hnone : (t.proc i).parent = none := by
    cases hp : (t.proc i).parent with
    | none => rfl
    | some q => exact absurd hu (h.kids i q hp).1
  have hnoti : ¬(t.pc i).live := fun hv => ((h.live i).mp hv).1 hu
  have hnochild : ∀ q, (t.pc q).child ≠ some i := fun q hq => by
    have := h.child q i hq
    rw [hu] at this
    cases this
  refine h.change he trivial rfl (fun k hk => (some.inj hk).symm) (update_self ..)
    ?_ nofun (fun _ => hpci) (fun _ => ?_) (fun k hk => ?_) (fun q _ hq => absurd hq (hnochild q))
    (fun k hk => ?_) (fun _ _ _ => hnone) (fun q hq => ?_)
      (fun j _ hj => absurd (h.kids j i hj).2.1 hnoti)
    (fun _ _ _ => .inl rfl) (fun k _ hk => ?_) (fun j hj => hj.elim) (fun q _ _ => ?_) rfl
    (fun q _ hq => ?_) (fun h0 => absurd (h0 ▸ h.init.1) hnoti) (fun _ hx => hx)
  · rw [hpci]
    exact ⟨fun _ => ⟨nofun, nofun⟩, fun _ => trivial⟩
  · rw [hpc]
    exact ⟨trivial, trivial⟩
  · exact .inl ⟨(some.inj hk).symm, rfl, fun q _ => hnochild q⟩
  · exact .inl ⟨(some.inj hk).symm, hnone⟩
  · rw [show (t.proc i).parent = some q from hq] at hnone
    cases hnone
  · rw [hpc] at hk
    cases hk
  · rw [hnone]
    exact nofun
  · exact h.watched q i hq

/-- `kfork` gives a slot back. -/
theorem Kin.run_drop (hpc : t.pc p = .forkMade i) :
    Kin init ((Op.drop i).next init t p (.forkFail i)) := by
  have he : Edge init t p (t.pc p) (.drop i) (.forkFail i) := hpc ▸ .forkDrop i
  have hip : i ≠ p := (h.seat he rfl).1
  have hpci : ((Op.drop i).next init t p (.forkFail i)).pc i = .gone :=
    (update_of_ne hip ..).trans (update_self ..)
  have hmine : (t.pc p).child = some i := by rw [hpc]; rfl
  have hu : (t.proc i).state = .used := h.child p i hmine
  refine h.change he trivial rfl (fun k hk => (some.inj hk).symm) (update_self ..)
    ?_ (fun _ => hpci) nofun (fun _ => ?_) (fun k hk => nomatch hk)
    (fun q hq hc => absurd (h.one q p i hc hmine) hq) (fun k hk => nomatch hk) (fun _ _ _ => rfl)
    (fun q hq => nomatch hq) (fun j _ hj => absurd hu (h.kids j i hj).2.2) (fun h => absurd rfl h)
    (fun k hki hk => ?_) (fun j hj => hj.elim) (fun q _ _ h => nomatch h) rfl (fun q _ hq => ?_)
    (fun h0 => absurd hu (h0 ▸ h.init.2.2)) (fun _ hx => hx)
  · rw [hpci]
    exact ⟨fun h => h.elim, fun h => absurd rfl h.1⟩
  · rw [hpc]
    exact ⟨trivial, trivial⟩
  · rw [hpc] at hk
    exact absurd (some.inj hk).symm hki
  · -- a slot without a parent is not one that `kwait` has seen
    have h1 := h.watched q i hq
    rw [h.window p i (by rw [hpc]; rfl)] at h1
    cases h1

/-- `np->parent = p` -/
theorem Kin.run_link (hpc : t.pc p = .forkLink i) :
    Kin init ((Op.link i).next init t p (.forkLinked i)) := by
  have he : Edge init t p (t.pc p) (.link i) (.forkLinked i) := hpc ▸ .forkLink i
  have hmine : (t.pc p).child = some i := by rw [hpc]; rfl
  have hu : (t.proc i).state = .used := h.child p i hmine
  have hip : i ≠ p := fun hip => (h.runs he).2 (hip ▸ hu)
  have hwp : (t.pc p).waits = true := by rw [hpc]; rfl
  have hpcq : ∀ q, q ≠ p → ((Op.link i).next init t p (.forkLinked i)).pc q = t.pc q := fun q hq =>
    next_pc_ne hq nofun
  have hprocp : ((Op.link i).next init t p (.forkLinked i)).proc p = t.proc p :=
    next_proc_ne fun h => hip (some.inj h)
  have hpci := (hpcq i hip).trans (h.used i hu)
  refine h.change he trivial rfl (fun k hk => nomatch hk) (update_self ..)
    ?_ (fun hx => ?_) (fun _ => hpci) (fun _ => ?_) (fun k hk => ?_)
    (fun q hq hc => absurd (h.one q p i hc hmine) hq) (fun k hk => nomatch hk)
    (fun q hq hc => absurd (h.one q p i (child_of_window hc) hmine) hq) (fun q hq => ?_)
    (fun j _ hj => absurd hu (h.kids j i hj).2.2) nofun (fun k hki hk => ?_)
    (fun j hj => hj.elim) (fun q hq hx => absurd (h.alone hwp (waits_of_swept hx)) hq) rfl
    (fun q hq hx => absurd (h.alone hwp (waits_of_watched hx)) hq)
    (fun h0 => absurd hu (h0 ▸ h.init.2.2)) (fun _ hx => hx)
  · rw [hpci]
    rw [hu]
    exact ⟨fun _ => by decide, fun _ => trivial⟩
  · rw [show (t.proc i).state = .unused from hx] at hu
    cases hu
  · rw [hpc]
    exact ⟨trivial, trivial⟩
  · exact .inl ⟨(some.inj hk).symm, hu, fun q hq hc => hq (h.one q p i hc hmine)⟩
  · obtain rfl : p = q := some.inj hq
    rw [next_pc_self, hprocp]
    refine ⟨?_, trivial, (h.runs he).2⟩
    rw [hu]
    decide
  · rw [hpc] at hk
    exact absurd (some.inj hk).symm hki

/-- `pp->parent = initproc` -/
theorem Kin.run_adopt {st : ℤ} (hpc : t.pc p = .reparent st i) (hpar : (t.proc i).parent = some p) :
    Kin init ((Op.adopt i).next init t p (.wake st (some init) 0 (.reparent (i + 1)))) := by
  have he : Edge init t p (t.pc p) (.adopt i) (.wake st (some init) 0 (.reparent (i + 1))) :=
    hpc ▸ .adopt st i hpar
  have hwp : (t.pc p).waits = true := by rw [hpc]; rfl
  have hp0 : p ≠ init := by
    rintro rfl
    exact h.init.2.1 (by rw [hpc]; trivial)
  have hnowin : ∀ q, (t.pc q).window ≠ some i := fun q hq => by
    rw [h.window q i hq] at hpar
    cases hpar
  obtain ⟨hi1, _, _⟩ := h.kids i p hpar
  have hpcq : ∀ q, q ≠ p →
    ((Op.adopt i).next init t p (.wake st (some init) 0 (.reparent (i + 1)))).pc q =
      t.pc q := fun q hq => next_pc_ne hq nofun
  have hstate :
    ∀ q, (((Op.adopt i).next init t p (.wake st (some init) 0 (.reparent (i + 1)))).proc q).state =
      (t.proc q).state := by
    intro q
    show (update t.proc i _ q).state = _
    by_cases hq : q = i
    · rw [hq, update_self]
    · rw [update_of_ne hq]
  have hlivep : (t.pc p).live := by rw [hpc]; trivial
  refine h.change he trivial rfl (fun k hk => nomatch hk) (update_self ..)
    ?_ (fun hx => absurd hx hi1) (fun hx => ?_) (fun _ => ⟨hlivep, trivial⟩)
      (fun k hk => nomatch hk)
    (fun q _ hc => h.child q i hc) (fun k hk => nomatch hk) (fun q _ hc => absurd hc (hnowin q))
    (fun q hq => ?_) (fun j _ hj => ?_) nofun (fun k _ hk => ?_) (fun j hj => ?_)
    (fun q hq hx => absurd (h.alone hwp (waits_of_swept hx)) hq) rfl
    (fun q hq hx => absurd (h.alone hwp (waits_of_watched hx)) hq) (fun h0 => ?_)
    (fun h0 => absurd h0 hp0)
  · rw [← h.live]
    by_cases hip : i = p
    · rw [hip, next_pc_self]
      exact ⟨fun _ => hlivep, fun _ => trivial⟩
    · rw [hpcq i hip]
  · have hx : (t.proc i).state = .used := hx
    have hip : i ≠ p := fun hip => (h.runs he).2 (hip ▸ hx)
    rw [hpcq i hip]
    exact h.used i hx
  · obtain rfl : init = q := some.inj hq
    rw [hpcq init (Ne.symm hp0)]
    rw [hstate]
    exact ⟨hi1, h.init.1, h.init.2.2⟩
  · obtain ⟨_, h2, h3⟩ := h.kids j i hj
    refine ⟨?_, h3⟩
    by_cases hip : i = p
    · rw [hip, next_pc_self]
      trivial
    · rw [hpcq i hip]
      exact h2
  · rw [hpc] at hk
    cases hk
  · by_cases hji : j = i
    · exact .inl ⟨hji, fun h => hp0 (some.inj h).symm⟩
    · refine .inr ⟨hji, ?_⟩
      rw [hpc]
      have hle : (j : ℕ) < i + 1 := hj
      have hne : (j : ℕ) ≠ i := fun h => hji (Fin.ext h)
      show (j : ℕ) < i
      omega
  · obtain ⟨h1, h2⟩ := (h.live i).mp (h0 ▸ h.init.1)
    exact ⟨h1, h2, h0 ▸ h.init.2.2⟩

/-- The process becomes a zombie. -/
theorem Kin.run_zombie {st : ℤ} (hpc : t.pc p = .exitSet st) :
    Kin init ((Op.zombie st).next init t p .exitRelease) := by
  have he : Edge init t p (t.pc p) (.zombie st) .exitRelease := hpc ▸ .exitSet st
  have hwp : (t.pc p).waits = true := by rw [hpc]; rfl
  have hp0 : p ≠ init := by
    rintro rfl
    exact h.init.2.1 (by rw [hpc]; trivial)
  have hnokid : ∀ j, (t.proc j).parent ≠ some p := fun j => h.swept p j (by rw [hpc]; trivial)
  have hlivep : (t.pc p).live := by rw [hpc]; trivial
  obtain ⟨hr1, hr2⟩ := h.runs he
  refine h.change he trivial rfl (fun k hk => nomatch hk) (update_self ..)
    ?_ nofun nofun (fun h => absurd rfl h) (fun k hk => nomatch hk)
    (fun q _ hc => absurd (h.child q p hc) hr2) (fun k hk => nomatch hk)
      (fun q _ hc => h.window q p hc)
    (fun q hq => ?_) (fun j _ hj => absurd hj (hnokid j)) (fun _ h0 hx => ?_) (fun k _ hk => ?_)
    (fun j hj => hj.elim) (fun q hq hx => absurd (h.alone hwp (waits_of_swept hx)) hq) rfl
    (fun q hq hx => absurd (h.alone hwp (waits_of_watched hx)) hq) (fun h0 => absurd h0.symm hp0)
    (fun h0 => absurd h0 hp0)
  · rw [next_pc_self]
    exact ⟨fun h => h.elim, fun h => absurd rfl h.2⟩
  · have hq : (t.proc p).parent = some q := hq
    obtain ⟨_, h2, h3⟩ := h.kids p q hq
    have hqp : q ≠ p := by
      rintro rfl
      exact hnokid q hq
    have hpcq : ((Op.zombie st).next init t p .exitRelease).pc q = t.pc q := next_pc_ne hqp nofun
    have hprocq : ((Op.zombie st).next init t p .exitRelease).proc q = t.proc q :=
      next_proc_ne fun h => hqp (some.inj h).symm
    rw [hpcq, hprocq]
    exact ⟨nofun, h2, h3⟩
  · obtain ⟨q, hq⟩ := h.parents p hr1 h0 hx
    refine .inr ⟨q, ?_, hq⟩
    rintro rfl
    rw [hpc] at hq
    cases hq
  · rw [hpc] at hk
    cases hk

/-- `kwait` frees a zombie. -/
theorem Kin.run_collect (hpc : t.pc p = .waitLook i) (hz : (t.proc i).state = .zombie) :
    Kin init ((Op.collect i).next init t p (.waitFreed i (t.proc i).report)) := by
  have he : Edge init t p (t.pc p) (.collect i) (.waitFreed i (t.proc i).report) :=
    hpc ▸ .waitCollect i hz
  have hwp : (t.pc p).waits = true := by rw [hpc]; rfl
  have hnoti : ¬(t.pc i).live := fun hv => ((h.live i).mp hv).2 hz
  have hlivep : (t.pc p).live := by rw [hpc]; trivial
  have hip : i ≠ p := fun hip => hnoti (hip ▸ hlivep)
  have hgone : t.pc i = .gone := by
    refine gone_of_not_live (p := i) hnoti fun hl => hip ?_
    have h1 := (h.locks i i).mpr hl
    have h2 := (h.locks p i).mpr (by rw [hpc]; rfl)
    exact some.inj (h1.symm.trans h2)
  have hkeep : ((Op.collect i).next init t p (.waitFreed i (t.proc i).report)).pc i = t.pc i :=
    next_pc_ne hip nofun
  have hpci := hkeep.trans hgone
  refine h.change he trivial rfl (fun k hk => nomatch hk) (update_self ..)
    ?_ (fun _ => hpci) nofun (fun _ => ⟨hlivep, trivial⟩) (fun k hk => nomatch hk)
    (fun q _ hc => ?_) (fun k hk => nomatch hk) (fun _ _ _ => rfl) (fun q hq => nomatch hq)
    (fun j _ hj => absurd (h.kids j i hj).2.1 hnoti) (fun h => absurd rfl h) (fun k _ hk => ?_)
    (fun j hj => hj.elim) (fun q _ _ h => nomatch h) rfl
    (fun q hq hx => absurd (h.alone hwp (waits_of_watched hx)) hq)
    (fun h0 => absurd (h0 ▸ h.init.1) hnoti) (fun _ hx => hx)
  · rw [hpci]
    exact ⟨fun h => h.elim, fun h => absurd rfl h.1⟩
  · have := h.child q i hc
    rw [hz] at this
    cases this
  · rw [hpc] at hk
    cases hk

/-- A step of a thread. -/
theorem Kin.run (he : Edge init t p (t.pc p) op pc') (hen : op.Enabled t) :
    Kin init (op.next init t p pc') := by
  generalize hpc : t.pc p = pc at he
  cases he with
  | forkTake i hu => exact h.run_take hpc hu
  | forkDrop i => exact h.run_drop hpc
  | forkLink i => exact h.run_link hpc
  | adopt st k hk => exact h.run_adopt hpc hk
  | exitSet st => exact h.run_zombie hpc
  | waitCollect k hz => exact h.run_collect hpc hz
  | _ =>
    refine h.run_mild ?_ hen trivial
    rw [hpc]
    constructor <;> assumption

/-- A record changes mildly, and no thread moves. -/
theorem Kin.setProc {x : Proc n} (hx : Mildly (t.proc i) x)
    (hu : (t.proc i).state = .used → x.state = .used) : Kin init (t.setProc i x) := by
  have hproc : ∀ j, Mildly (t.proc j) ((t.setProc i x).proc j) ∧
      ((t.proc j).state = .used → ((t.setProc i x).proc j).state = .used) := by
    intro j
    by_cases hj : j = i
    · rw [hj, show (t.setProc i x).proc i = x from update_self ..]
      exact ⟨hx, hu⟩
    · rw [show (t.setProc i x).proc j = t.proc j from update_of_ne hj ..]
      exact ⟨.refl _, fun h => h⟩
  exact h.mild (p := i) h.waits h.locks (fun j => (hproc j).1) (fun _ _ => rfl)
    (.inl rfl) Iff.rfl rfl
    (fun _ h => h) (fun _ j _ => (hproc j).2) (fun _ h => .inl h) (fun _ h => .inl h) fun h =>
      .inl h

/-- The scheduler switches to a process. -/
theorem Kin.schedule {m : Rest} (hpc : t.pc i = .away m) (hl : t.plock i = none)
    (hs : (t.proc i).state = .runnable) :
    Kin init (((t.setProc i { t.proc i with state := .running }).setLock i (some i)).setPc i
      (.back m)) := by
  generalize hT : ((t.setProc i { t.proc i with state := .running }).setLock i (some i)).setPc i
    (.back m) = t'
  have hpci : t'.pc i = .back m := by
    rw [← hT]
    exact update_self ..
  have hpcq : ∀ q, q ≠ i → t'.pc q = t.pc q := fun q hq => by
    rw [← hT]
    exact update_of_ne hq ..
  have hproci : t'.proc i = { t.proc i with state := .running } := by
    rw [← hT]
    exact update_self ..
  have hproc : ∀ j, j ≠ i → t'.proc j = t.proc j := fun j hj => by
    rw [← hT]
    exact update_of_ne hj ..
  have hlock : ∀ j, t'.plock j = if j = i then some i else t.plock j := fun j => by
    rw [← hT]
    exact update_apply ..
  have hnotused : (t.proc i).state ≠ .used := by
    rw [hs]
    decide
  refine h.mild (p := i) (fun q => ?_) (fun q j => ?_) (fun j => ?_) hpcq
    (.inr ⟨by rw [hs]; decide, hnotused⟩)
    ?_ ?_ (fun j hj => ?_) (fun q j _ hj => ?_) (fun j hj => ?_) (fun k hk => ?_) (fun hx => ?_)
  · rw [show t'.waitLock = t.waitLock by rw [← hT]; rfl, h.waits]
    by_cases hq : q = i
    · rw [hq, hpci, hpc]
      rfl
    · rw [hpcq q hq]
  · rw [hlock]
    by_cases hq : q = i
    · rw [hq, hpci]
      show _ ↔ some i = some j
      by_cases hj : j = i
      · rw [if_pos hj, hj]
      · rw [if_neg hj, h.locks, hpc]
        exact ⟨nofun, fun h => absurd (some.inj h).symm hj⟩
    · rw [hpcq q hq, ← h.locks]
      by_cases hj : j = i
      · rw [if_pos hj, hj, hl]
        exact ⟨fun h => absurd (some.inj h).symm hq, nofun⟩
      · rw [if_neg hj]
  · by_cases hj : j = i
    · rw [hj, hproci]
      exact .set (by rw [hs]; decide) (by rw [hs]; decide) (by decide)
    · rw [hproc j hj]
      exact .refl _
  · rw [hpci, hpc]
    exact Iff.rfl
  · rw [hpci, hpc]
    rfl
  · rw [hpci] at hj
    cases hj
  · have hji : j ≠ i := fun h => hnotused (h ▸ hj)
    rw [hproc j hji]
    exact hj
  · rw [hpci] at hj
    exact hj.elim
  · rw [hpci] at hk
    cases hk
  · rw [hpci] at hx
    exact hx.elim

end

/-- What a step of the system is. -/
theorem step_cases {e : Ev n} (hs : step init t e = some t') :
    (∃ p c op pc', e = .run p c ∧ Edge init t p (t.pc p) op pc' ∧ op.Enabled t ∧
      t' = op.next init t p pc') ∨
    (∃ i m, t.pc i = .away m ∧ t.plock i = none ∧ (t.proc i).state = .runnable ∧
      t' = ((t.setProc i { t.proc i with state := .running }).setLock i (some i)).setPc i
        (.back m)) ∨
    ∃ i x, Mildly (t.proc i) x ∧ ((t.proc i).state = .used → x.state = .used) ∧
    t' = t.setProc i x := by
  cases e with
  | run p c =>
    unfold step at hs
    dsimp only at hs
    split at hs
    · rename_i op pc' he
      split at hs
      · rename_i hen
        cases hs
        exact .inl ⟨p, c, op, pc', rfl, .of_edge he, hen, rfl⟩
      · cases hs
    · cases hs
  | schedule i =>
    unfold step at hs
    dsimp only at hs
    split at hs
    · rename_i m hm
      split at hs
      · rename_i hg
        cases hs
        exact .inr (.inl ⟨i, m, hm, hg.1, hg.2, rfl⟩)
      · cases hs
    · cases hs
  | kill i =>
    unfold step at hs
    dsimp only at hs
    split at hs
    · cases hs
      refine .inr (.inr ⟨i, _, ?_, fun hu => ?_, rfl⟩)
      · unfold killBody
        by_cases hs : (t.proc i).state = .sleeping
        · rw [if_pos hs]
          exact ⟨rfl, rfl, .inr ⟨by rw [hs]; decide, by rw [hs]; decide, nofun, nofun, nofun⟩⟩
        · exact ⟨rfl, rfl, .inl (if_neg hs)⟩
      · unfold killBody
        dsimp only
        rw [hu]
        rfl
    · cases hs
  | wakeup i =>
    unfold step at hs
    dsimp only at hs
    split at hs
    · rename_i hg
      cases hs
      refine .inr (.inr ⟨i, _, ?_, fun hu => ?_, rfl⟩)
      · exact .set (by rw [hg.2.1]; decide) (by rw [hg.2.1]; decide) (by decide)
      · rw [hg.2.1] at hu
        cases hu
    · cases hs

theorem Kin.step (h : Kin init t) {e : Ev n} (hs : step init t e = some t') : Kin init t' := by
  rcases step_cases hs with
    ⟨p, c, op, pc', _, he, hen, rfl⟩ | ⟨i, m, h1, h2, h3, rfl⟩ | ⟨i, x, h1, h2, rfl⟩
  · exact h.run he hen
  · exact h.schedule h1 h2 h3
  · exact h.setProc h1 h2

end

end Xv6.Family
