/-
  Every exit is collected once, by a living parent.

  `Hist` is the invariant of the history: serial numbers are not given twice, no process is
  collected twice, and what `kwait` returns it has collected. `exits_collected` puts it together
  with the family invariant.
-/
import Xv6.Family.Kin

namespace Xv6.Family

open Lib Function List Option
open Process (ProcState nextPid)

variable {n : ℕ}

section

variable {init : Fin n} {t t' : Table n} {p q i : Fin n} {op : Op n} {pc pc' : Pc n}

/-! ## History -/

/-- What a call of `kwait` is about to return. -/
def Pc.reports : Pc n → Option Report
  | waitFreed _ r => some r
  | waitDone r => r
  | _ => none

structure Hist (t : Table n) : Prop where
  below : ∀ i, (t.proc i).state ≠ .unused → (t.proc i).serial < t.made
  inj : ∀ i j, (t.proc i).state ≠ .unused → (t.proc j).state ≠ .unused →
    (t.proc i).serial = (t.proc j).serial → i = j
  zombies : ∀ i, (t.proc i).state = .zombie → (t.proc i).report ∈ t.exited
  freed : ∀ e ∈ t.collected, e.2.serial < t.made ∧
    ∀ i, (t.proc i).state ≠ .unused → (t.proc i).serial ≠ e.2.serial
  once : (t.collected.map fun e => e.2.serial).Nodup
  exits : ∀ e ∈ t.collected, e.2 ∈ t.exited
  returned : ∀ e ∈ t.returned, e ∈ t.collected
  returnedOnce : (t.returned.map fun e => e.2.serial).Nodup
  pending : ∀ p r, (t.pc p).reports = some r →
    (p, r) ∈ t.collected ∧ ∀ e ∈ t.returned, e.2.serial ≠ r.serial

theorem boot_hist (init : Fin n) : Hist (boot init) := by
  have hstate : ∀ i, ((boot init).proc i).state ≠ .unused → i = init := by
    intro i hi
    by_contra h0
    rw [show (boot init).proc i = .unused from if_neg h0] at hi
    exact hi rfl
  refine ⟨fun i hi => ?_, fun i j hi hj _ => (hstate i hi).trans (hstate j hj).symm, fun i hi => ?_,
    fun e he => (nomatch he), nodup_nil, fun e he => (nomatch he), fun e he => (nomatch he),
    nodup_nil, fun p r hr => ?_⟩
  · rw [hstate i hi, show (boot init).proc init = _ from if_pos rfl]
    exact Nat.zero_lt_one
  · have h0 := hstate i (by rw [hi]; decide)
    rw [h0, show (boot init).proc init = _ from if_pos rfl] at hi
    cases hi
  · by_cases h0 : p = init
    · rw [h0, show (boot init).pc init = _ from if_pos rfl] at hr
      cases hr
    · rw [show (boot init).pc p = _ from if_neg h0] at hr
      cases hr

/-- No process comes, exits or is collected. -/
theorem Hist.frame (h : Hist t)
    (hproc : ∀ i, (t'.proc i).state ≠ .unused → (t.proc i).state ≠ .unused ∧
      (t'.proc i).report = (t.proc i).report ∧
      ((t'.proc i).state = .zombie → (t.proc i).state = .zombie))
    (h1 : t'.made = t.made) (h2 : t'.exited = t.exited) (h3 : t'.collected = t.collected)
    (h4 : t'.returned = t.returned)
    (hpc : ∀ p r, (t'.pc p).reports = some r → (t.pc p).reports = some r) :
    Hist t' := by
  have hser : ∀ i, (t'.proc i).state ≠ .unused → (t'.proc i).serial = (t.proc i).serial :=
    fun i hi =>
    congrArg Report.serial (hproc i hi).2.1
  refine ⟨fun i hi => ?_, fun i j hi hj he => ?_, fun i hi => ?_, fun e he => ?_, ?_, fun e he =>
    ?_,
    fun e he => ?_, ?_, fun p r hr => ?_⟩
  · rw [hser i hi, h1]
    exact h.below i (hproc i hi).1
  · rw [hser i hi, hser j hj] at he
    exact h.inj i j (hproc i hi).1 (hproc j hj).1 he
  · have hne : (t'.proc i).state ≠ .unused := by
      rw [hi]
      decide
    rw [(hproc i hne).2.1, h2]
    exact h.zombies i ((hproc i hne).2.2 hi)
  · rw [h3] at he
    refine ⟨by rw [h1]; exact (h.freed e he).1, fun i hi => ?_⟩
    rw [hser i hi]
    exact (h.freed e he).2 i (hproc i hi).1
  · rw [h3]
    exact h.once
  · rw [h3] at he
    rw [h2]
    exact h.exits e he
  · rw [h4] at he
    rw [h3]
    exact h.returned e he
  · rw [h4]
    exact h.returnedOnce
  · rw [h3, h4]
    exact h.pending p r (hpc p r hr)

/-- The reports that are on their way after a step. -/
theorem Edge.reports (he : Edge init t p pc op pc') (hop : ∀ k, op ≠ .collect k) {r : Report}
    (hr : pc'.reports = some r) : pc.reports = some r := by
  cases he with
  | wakeEnd st c i a => cases a <;> cases hr
  | waitCollect k hk => exact absurd rfl (hop k)
  | waitFreed k r => exact hr
  | _ => cases hr

theorem next_reports (h : Kin init t) (he : Edge init t p (t.pc p) op pc')
    (hop : ∀ k, op ≠ .collect k)
    {r : Report} (hr : ((op.next init t p pc').pc q).reports = some r) :
    (t.pc q).reports = some r := by
  by_cases hq : q = p
  · rw [hq, next_pc_self] at hr
    rw [hq]
    exact he.reports hop hr
  · by_cases hs : op.seat = some q
    · rcases (h.seat he hs).2.2 with hi | hi
      · rw [hi] at hr
        cases hr
      · rw [hi] at hr
        cases hr
    · rw [next_pc_ne hq hs] at hr
      exact hr

theorem Hist.run_take (h : Hist t) (hk : Kin init t) (hpc : t.pc p = .forkLook i)
    (hu : (t.proc i).state = .unused) : Hist ((Op.take i).next init t p (.forkMade i)) := by
  have he : Edge init t p (t.pc p) (.take i) (.forkMade i) := hpc ▸ .forkTake i hu
  have hrep : ∀ q r, (((Op.take i).next init t p (.forkMade i)).pc q).reports = some r →
      (t.pc q).reports = some r := fun q r => next_reports hk he fun k h => nomatch h
  have hi : ((Op.take i).next init t p (.forkMade i)).proc i =
    { t.proc i with state := .used, pid := t.nextpid, serial := t.made } := update_self ..
  have hne : ∀ j, j ≠ i → ((Op.take i).next init t p (.forkMade i)).proc j = t.proc j := fun j hj =>
    update_of_ne hj ..
  refine ⟨fun j hj => ?_, fun j k hj hk he => ?_, fun j hj => ?_, fun e he => ?_, h.once, h.exits,
    h.returned, h.returnedOnce, fun q r hr => h.pending q r (hrep q r hr)⟩
  · by_cases hji : j = i
    · rw [hji, hi]
      exact Nat.lt_succ_self _
    · rw [hne j hji] at hj ⊢
      exact Nat.lt_succ_of_lt (h.below j hj)
  · by_cases hji : j = i
    · by_cases hki : k = i
      · rw [hji, hki]
      · rw [hne k hki] at hk he
        rw [hji, hi] at he
        exact absurd he.symm (Nat.ne_of_lt (h.below k hk))
    · rw [hne j hji] at hj he
      by_cases hki : k = i
      · rw [hki, hi] at he
        exact absurd he (Nat.ne_of_lt (h.below j hj))
      · rw [hne k hki] at hk he
        exact h.inj j k hj hk he
  · have hji : j ≠ i := by
      rintro rfl
      rw [hi] at hj
      cases hj
    rw [hne j hji] at hj ⊢
    exact h.zombies j hj
  · -- a serial number that was given before is below the new one
    obtain ⟨hlt, hno⟩ := h.freed e he
    refine ⟨Nat.lt_succ_of_lt hlt, fun j hj => ?_⟩
    by_cases hji : j = i
    · rw [hji, hi]
      exact Nat.ne_of_gt hlt
    · rw [hne j hji] at hj ⊢
      exact hno j hj

theorem Hist.run_zombie (h : Hist t) (hk : Kin init t) {st : ℤ} (hpc : t.pc p = .exitSet st) :
    Hist ((Op.zombie st).next init t p .exitRelease) := by
  have he : Edge init t p (t.pc p) (.zombie st) .exitRelease := hpc ▸ .exitSet st
  have hrep : ∀ q r, (((Op.zombie st).next init t p .exitRelease).pc q).reports = some r →
      (t.pc q).reports = some r := fun q r => next_reports hk he fun k h => nomatch h
  have hr := (hk.runs he).1
  have hp : ((Op.zombie st).next init t p .exitRelease).proc p =
    { t.proc p with xstate := st, state := .zombie } := update_self ..
  have hne : ∀ j, j ≠ p → ((Op.zombie st).next init t p .exitRelease).proc j = t.proc j :=
    fun j hj =>
    update_of_ne hj ..
  have hser : ∀ j, (((Op.zombie st).next init t p .exitRelease).proc j).serial =
      (t.proc j).serial := fun j => by
    by_cases hj : j = p
    · rw [hj, hp]
    · rw [hne j hj]
  have hold : ∀ j, (((Op.zombie st).next init t p .exitRelease).proc j).state ≠ .unused →
      (t.proc j).state ≠ .unused := fun j hs => by
    by_cases hj : j = p
    · rw [hj]
      exact hr
    · rw [hne j hj] at hs
      exact hs
  refine ⟨fun j hj => ?_, fun j k hj hk he => ?_, fun j hj => ?_, fun e he => ?_, h.once,
    fun e he => mem_cons_of_mem _ (h.exits e he), h.returned, h.returnedOnce,
    fun q r hr => h.pending q r (hrep q r hr)⟩
  · rw [hser]
    exact h.below j (hold j hj)
  · rw [hser, hser] at he
    exact h.inj j k (hold j hj) (hold k hk) he
  · by_cases hjp : j = p
    · rw [hjp, hp]
      exact mem_cons_self
    · rw [hne j hjp] at hj ⊢
      exact mem_cons_of_mem _ (h.zombies j hj)
  · obtain ⟨hlt, hno⟩ := h.freed e he
    refine ⟨hlt, fun j hj => ?_⟩
    rw [hser]
    exact hno j (hold j hj)

theorem Hist.run_collect (h : Hist t) (hz : (t.proc i).state = .zombie) :
    Hist ((Op.collect i).next init t p (.waitFreed i (t.proc i).report)) := by
  generalize hpc' : Pc.waitFreed i (t.proc i).report = pc'
  have hne : ∀ j, j ≠ i → ((Op.collect i).next init t p pc').proc j = t.proc j :=
    fun j hj => update_of_ne hj ..
  have hnot : (t.proc i).state ≠ .unused := by
    rw [hz]
    decide
  have hold : ∀ j, (((Op.collect i).next init t p pc').proc j).state ≠ .unused → j ≠ i := by
    rintro j hs rfl
    rw [show ((Op.collect j).next init t p pc').proc j = freeproc (t.proc j) from
      update_self ..] at hs
    exact hs rfl
  -- the zombie has not been collected before
  have hnew : ∀ e ∈ t.collected, e.2.serial ≠ (t.proc i).serial := fun e he =>
    ((h.freed e he).2 i hnot).symm
  refine ⟨fun j hj => ?_, fun j k hj hk he => ?_, fun j hj => ?_, fun e he => ?_,
    nodup_cons.mpr ⟨fun hm => ?_, h.once⟩, fun e he => ?_, fun e he =>
      mem_cons_of_mem _ (h.returned e he),
    h.returnedOnce, fun q r hr => ?_⟩
  · have hji := hold j hj
    rw [hne j hji] at hj ⊢
    exact h.below j hj
  · have hji := hold j hj
    have hki := hold k hk
    rw [hne j hji] at hj he
    rw [hne k hki] at hk he
    exact h.inj j k hj hk he
  · have hji := hold j (by rw [hj]; decide)
    rw [hne j hji] at hj ⊢
    exact h.zombies j hj
  · rcases List.mem_cons.mp he with rfl | he
    · refine ⟨h.below i hnot, fun j hj => ?_⟩
      have hji := hold j hj
      rw [hne j hji] at hj ⊢
      exact fun h' => hji (h.inj j i hj hnot h')
    · refine ⟨(h.freed e he).1, fun j hj => ?_⟩
      have hji := hold j hj
      rw [hne j hji] at hj ⊢
      exact (h.freed e he).2 j hj
  · obtain ⟨e, he, hs⟩ := List.mem_map.mp hm
    exact hnew e he hs
  · rcases List.mem_cons.mp he with rfl | he
    · exact h.zombies i hz
    · exact h.exits e he
  · by_cases hq : q = p
    · rw [hq, next_pc_self, ← hpc'] at hr
      rw [hq, ← some.inj hr]
      exact ⟨mem_cons_self, fun e he => hnew e (h.returned e he)⟩
    · rw [show ((Op.collect i).next init t p pc').pc q = t.pc q from next_pc_ne hq nofun] at hr
      exact ⟨mem_cons_of_mem _ (h.pending q r hr).1, (h.pending q r hr).2⟩

theorem Hist.run_ret (h : Hist t) (hk : Kin init t) {r : Option Report}
    (hpc : t.pc p = .waitDone r) :
    Hist ((Op.ret r).next init t p .free) := by
  have he : Edge init t p (t.pc p) (.ret r) .free := hpc ▸ .waitDone r
  have hrep : ∀ q x, (((Op.ret r).next init t p .free).pc q).reports = some x →
      (t.pc q).reports = some x := fun q x => next_reports hk he fun k h => nomatch h
  cases r with
  | none => exact h.frame (fun i hi => ⟨hi, rfl, fun h => h⟩) rfl rfl rfl rfl hrep
  | some r =>
    obtain ⟨hmem, hnew⟩ := h.pending p r (by rw [hpc]; rfl)
    -- the other threads have nothing to return: they would hold `wait_lock`
    have hnone : ∀ q x, (((Op.ret (some r)).next init t p .free).pc q).reports ≠ some x := by
      intro q x hq
      have hwq : (t.pc q).waits = true := by
        have := hrep q x hq
        cases hp : t.pc q <;> first | rfl | (rw [hp] at this; cases this)
      obtain rfl := hk.alone (p := p) (by rw [hpc]; rfl) hwq
      rw [next_pc_self] at hq
      cases hq
    refine ⟨h.below, h.inj, h.zombies, h.freed, h.once, h.exits, fun e he => ?_, ?_,
      fun q x hq => absurd hq (hnone q x)⟩
    · rcases List.mem_cons.mp he with rfl | he
      · exact hmem
      · exact h.returned e he
    · show (r.serial :: t.returned.map fun e => e.2.serial).Nodup
      rw [nodup_cons]
      refine ⟨fun hm => ?_, h.returnedOnce⟩
      obtain ⟨e, he, hs⟩ := List.mem_map.mp hm
      exact hnew e he hs

/-- Operations that neither make nor collect a process and are no return. -/
def Op.Silent : Op n → Prop
  | .take _ | .zombie _ | .collect _ | .ret _ => False
  | _ => True

/-- A slot that is in use after such an operation has the process it had. -/
theorem Kin.silent (h : Kin init t) (he : Edge init t p (t.pc p) op pc') (hop : op.Silent)
    (hj : ((op.next init t p pc').proc i).state ≠ .unused) :
    (t.proc i).state ≠ .unused ∧ ((op.next init t p pc').proc i).report = (t.proc i).report ∧
      (((op.next init t p pc').proc i).state = .zombie → (t.proc i).state = .zombie) := by
  by_cases hm : Edge.Mild op
  · have hmi := (h.mildly he hm i).1
    exact ⟨fun h' => hj (hmi.unused.mpr h'), hmi.report, hmi.zombie.mp⟩
  by_cases hi : op.target p = some i
  · cases op with
    | drop k =>
      obtain rfl := some.inj hi
      rw [show ((Op.drop k).next init t p pc').proc k = freeproc (t.proc k) from
        update_self ..] at hj
      exact absurd rfl hj
    | link k =>
      obtain rfl := some.inj hi
      rw [show ((Op.link k).next init t p pc').proc k = { t.proc k with parent := some p } from
        update_self ..] at hj ⊢
      exact ⟨hj, rfl, fun h => h⟩
    | adopt k =>
      obtain rfl := some.inj hi
      rw [show ((Op.adopt k).next init t p pc').proc k = { t.proc k with parent := some init } from
        update_self ..] at hj ⊢
      exact ⟨hj, rfl, fun h => h⟩
    | _ => first | exact absurd trivial hm | exact hop.elim
  · rw [next_proc_ne hi] at hj ⊢
    exact ⟨hj, rfl, fun h => h⟩

theorem Hist.run_silent (h : Hist t) (hk : Kin init t) (he : Edge init t p (t.pc p) op pc')
    (hop : op.Silent) : Hist (op.next init t p pc') := by
  refine h.frame (fun j hj => hk.silent he hop hj) ?_ ?_ ?_ ?_
    fun q r => next_reports hk he (by rintro k rfl; exact hop)
  all_goals cases op <;> first | rfl | exact hop.elim

theorem Hist.run (h : Hist t) (hk : Kin init t) (he : Edge init t p (t.pc p) op pc') :
    Hist (op.next init t p pc') := by
  have hsilent : op.Silent → Hist (op.next init t p pc') := h.run_silent hk he
  generalize hpc : t.pc p = pc at he
  cases he with
  | forkTake i hu => exact h.run_take hk hpc hu
  | exitSet st => exact h.run_zombie hk hpc
  | waitCollect i hz => exact h.run_collect hz
  | waitDone r => exact h.run_ret hk hpc
  | _ => exact hsilent trivial

theorem Mildly.kept {a b : Proc n} (h : Mildly a b) (hb : b.state ≠ .unused) :
    a.state ≠ .unused ∧ b.report = a.report ∧ (b.state = .zombie → a.state = .zombie) :=
  ⟨fun h' => hb (h.unused.mpr h'), h.report, h.zombie.mp⟩

/-- A record is replaced by one that differs mildly. -/
theorem mildly_update (i : Fin n) {x : Proc n} (hx : Mildly (t.proc i) x) (j : Fin n) :
    Mildly (t.proc j) (update t.proc i x j) := by
  by_cases hj : j = i
  · rw [hj, update_self]
    exact hx
  · rw [update_of_ne hj]
    exact .refl _

theorem Hist.step (h : Hist t) (hk : Kin init t) {e : Ev n} (hs : step init t e = some t') :
    Hist t' := by
  rcases step_cases hs with
    ⟨p, c, op, pc', _, he, _, rfl⟩ | ⟨i, m, h1, h2, h3, rfl⟩ | ⟨i, x, h1, h2, rfl⟩
  · exact h.run hk he
  · have hx : Mildly (t.proc i) { t.proc i with state := .running } :=
      .set (by rw [h3]; decide) (by rw [h3]; decide) (by decide)
    refine h.frame (fun j => (mildly_update i hx j).kept) rfl rfl rfl rfl fun q r hr => ?_
    by_cases hqi : q = i
    · rw [hqi, show Table.pc (Table.setPc _ i (.back m)) i = .back m from update_self ..] at hr
      cases hr
    · have hq := update_of_ne hqi (Pc.back m) t.pc
      exact (congrArg Pc.reports hq).symm.trans hr
  · exact h.frame (fun j => (mildly_update i h1 j).kept) rfl rfl rfl rfl fun q r hr => hr

/-! ## Zombies -/

/-- Between two states no zombie is collected. -/
def Waiting (t t' : Table n) : Prop :=
  t'.collected = t.collected ∧ ∀ i, (t.proc i).state = .zombie →
    (t'.proc i).state = .zombie ∧ (t'.proc i).report = (t.proc i).report

/-- Between two states the `kwait` of `p` collects the zombie of slot `i`, a child of `p`. -/
structure Collects (t t' : Table n) (p i : Fin n) : Prop where
  parent : (t.proc i).parent = some p
  zombie : (t.proc i).state = .zombie
  unused : (t'.proc i).state = .unused
  collected : t'.collected = (p, (t.proc i).report) :: t.collected
  reports : (t'.pc p).reports = some (t.proc i).report
  others : ∀ j, j ≠ i → t'.proc j = t.proc j

theorem Waiting.of_mildly (h : ∀ i, Mildly (t.proc i) (t'.proc i))
    (hc : t'.collected = t.collected) :
    Waiting t t' :=
  ⟨hc, fun i hi => ⟨(h i).zombie.mpr hi, (h i).report⟩⟩

theorem Waiting.of_target (h : ∀ i, op.target p = some i → (t.proc i).state = .zombie →
      ((op.next init t p pc').proc i).state = .zombie ∧
      ((op.next init t p pc').proc i).report = (t.proc i).report)
    (hc : (op.next init t p pc').collected = t.collected) : Waiting t (op.next init t p pc') := by
  refine ⟨hc, fun i hi => ?_⟩
  by_cases ht : op.target p = some i
  · exact h i ht hi
  · rw [next_proc_ne ht]
    exact ⟨hi, rfl⟩

theorem Kin.run_zombies (h : Kin init t) (he : Edge init t p (t.pc p) op pc') :
    Waiting t (op.next init t p pc') ∨ ∃ i, Collects t (op.next init t p pc') p i := by
  have hmild : Edge.Mild op → (op.next init t p pc').collected = t.collected →
      Waiting t (op.next init t p pc') := fun hm hc => .of_mildly (fun i => (h.mildly he hm i).1) hc
  generalize hpc : t.pc p = pc at he
  cases he with
  | forkTake k hu =>
    refine .inl (.of_target (fun i hi hz => ?_) rfl)
    obtain rfl : k = i := some.inj hi
    rw [hu] at hz
    cases hz
  | forkDrop k =>
    refine .inl (.of_target (fun i hi hz => ?_) rfl)
    obtain rfl : k = i := some.inj hi
    have := h.child p k (by rw [hpc]; rfl)
    rw [hz] at this
    cases this
  | forkLink k =>
    refine .inl (.of_target (fun i hi hz => ?_) rfl)
    obtain rfl : k = i := some.inj hi
    have hself := update_self k { t.proc k with parent := some p } t.proc
    exact ⟨(congrArg Proc.state hself).trans hz, (congrArg Proc.report hself).trans rfl⟩
  | adopt st k hk =>
    refine .inl (.of_target (fun i hi hz => ?_) rfl)
    obtain rfl : k = i := some.inj hi
    have hself := update_self k { t.proc k with parent := some init } t.proc
    exact ⟨(congrArg Proc.state hself).trans hz, (congrArg Proc.report hself).trans rfl⟩
  | exitSet st =>
    refine .inl (.of_target (fun i hi hz => ?_) rfl)
    obtain rfl : p = i := some.inj hi
    exact absurd hz ((h.live p).mp (by rw [hpc]; trivial)).2
  | waitCollect k hz =>
    refine .inr ⟨k, h.watched p k (by rw [hpc]; rfl), hz, ?_, rfl, ?_, fun j hj =>
      update_of_ne hj ..⟩
    · exact congrArg Proc.state (update_self k (freeproc (t.proc k)) t.proc)
    · exact congrArg Pc.reports next_pc_self
  | _ => exact .inl (hmild trivial rfl)

theorem Kin.zombies (h : Kin init t) {e : Ev n} (hs : Family.step init t e = some t') :
    Waiting t t' ∨ ∃ p i, Collects t t' p i := by
  rcases step_cases hs with
    ⟨p, c, op, pc', _, he, _, rfl⟩ | ⟨i, m, h1, h2, h3, rfl⟩ | ⟨i, x, h1, h2, rfl⟩
  · exact (h.run_zombies he).imp_right fun hc => ⟨p, hc⟩
  · have hx : Mildly (t.proc i) { t.proc i with state := .running } :=
      .set (by rw [h3]; decide) (by rw [h3]; decide) (by decide)
    exact .inl (.of_mildly (mildly_update i hx) rfl)
  · exact .inl (.of_mildly (mildly_update i h1) rfl)

/-! ## Runs -/

theorem run_kin_hist {evs : List (Ev n)} (h : Run (Fires (step init)) (boot init) evs t) :
    Kin init t ∧ Hist t :=
  h.inv_state (I := fun t => Kin init t ∧ Hist t) ⟨boot_kin init, boot_hist init⟩
    fun _ _ _ ⟨hk, hh⟩ hs => ⟨hk.step hs, hh.step hk hs⟩

/-- Whenever no `kfork` stands between `allocproc` and its `np->parent = p`, every process but the
first has a parent that is neither unused nor a zombie. -/
def Parented (init : Fin n) (t : Table n) : Prop :=
  (∀ p i, (t.pc p).window ≠ some i) → ∀ i, (t.proc i).state ≠ .unused → i ≠ init →
    ∃ q, (t.proc i).parent = some q ∧ (t.proc q).state ≠ .unused ∧ (t.proc q).state ≠ .zombie

theorem Kin.parented (h : Kin init t) : Parented init t := by
  intro hno i hi h0
  cases hp : (t.proc i).parent with
  | none =>
    obtain ⟨p, hw⟩ := h.parents i hi h0 hp
    exact absurd hw (hno p i)
  | some q => exact ⟨q, rfl, (h.live q).mp (h.kids i q hp).2.1⟩

/-- Every exit is collected once, by a living parent. In every state that forks, exits, waits and
the scheduler reach in any interleaving, processes have living parents; the calls of `kwait` have
returned pid and status of processes that did exit, no process twice, and each after that same
caller has collected it. In the next step zombies stay as they are, or the `kwait` of the parent of
one collects it: its slot becomes unused, and its pid and status are what that call returns. -/
theorem exits_collected {evs : List (Ev n)} (h : Run (Fires (step init)) (boot init) evs t) :
    Parented init t ∧
    (t.returned.map fun e => e.2.serial).Nodup ∧
    (∀ e ∈ t.returned, e ∈ t.collected ∧ e.2 ∈ t.exited) ∧
    (∀ p r, (t.pc p).reports = some r → (p, r) ∈ t.collected) ∧
    ∀ e t', step init t e = some t' → Waiting t t' ∨ ∃ p i, Collects t t' p i := by
  obtain ⟨hk, hh⟩ := run_kin_hist h
  refine ⟨hk.parented, hh.returnedOnce, fun e he => ?_, fun p r hr => (hh.pending p r hr).1,
    fun e t' hs => ?_⟩
  · exact ⟨hh.returned e he, hh.exits e (hh.returned e he)⟩
  · exact hk.zombies hs

end

/-- The first process forks, its child exits with status 7, and the first waits for it. -/
def forkExitWait : List (Ev 2) :=
  [.schedule 0] ++ List.replicate 2 (.run 0 .go) ++ [.run 0 .fork] ++ List.replicate 13
    (.run 0 .go) ++
  [.schedule 1] ++ List.replicate 2 (.run 1 .go) ++ [.run 1 (.exit 7)] ++ List.replicate 13
    (.run 1 .go) ++
  [.run 0 .wait] ++ List.replicate 7 (.run 0 .go)

theorem exits_collected_fork : ∃ t : Table 2,
    Run (Fires (step 0)) (boot 0) forkExitWait t ∧ t.returned = [(0, ⟨1, 2, 7⟩)] ∧
    t.collected = t.returned ∧
    (t.proc 1).state = .unused ∧ Parented 0 t ∧ (t.returned.map fun e => e.2.serial).Nodup := by
  have hex : (exec (step 0) (boot 0) forkExitWait).any
    (fun t => decide (t.returned = [(0, ⟨1, 2, 7⟩)] ∧
      t.collected = t.returned ∧ (t.proc 1).state = .unused)) = true := by
    decide +kernel
  obtain ⟨t, hexec, ht⟩ := exec_any _ _ _ _ hex
  have hrun := run_of_exec hexec
  have ht := of_decide_eq_true ht
  have h := exits_collected hrun
  exact ⟨t, hrun, ht.1, ht.2.1, ht.2.2, h.1, h.2.1⟩

end Xv6.Family
