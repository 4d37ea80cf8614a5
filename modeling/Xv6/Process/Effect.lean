/-
  What one event does to one slot.

  `edit s e j` is the change that event `e` makes to the record of slot `j`; `next_proc` says
  so, once, by cases on the event. Every fact about a single field (who writes `killed`, who
  writes `scFilter`, how a slot becomes UNUSED) is read off `edit` and never off `next`.
-/
import Xv6.Process.System

namespace Xv6.Process

/-- Change slot `i` only. -/
def on (j i : Slot) (f : Proc → Proc) (p : Proc) : Proc :=
  if j = i then f p else p

@[simp] theorem on_same (i : Slot) (f : Proc → Proc) (p : Proc) : on i i f p = f p :=
  if_pos rfl

theorem on_ne {i j : Slot} (h : j ≠ i) (f : Proc → Proc) (p : Proc) : on j i f p = p :=
  if_neg h

/-- `syscall` on the record of the caller. -/
def syscallEdit (p : Proc) : Proc :=
  match lookup p.tf.a7 with
  | some c => if filterAllows p.scFilter c then p else { p with killed := true }.setA0 (-1)
  | none => p.setA0 (-1)

/-- `syscall` on the position of the caller. -/
def dispatchPos (p : Proc) : Pos :=
  match lookup p.tf.a7 with
  | some c => if filterAllows p.scFilter c then c.entry p.tf else .ret
  | none => .ret

/-- `kkill` on the record it stops at. -/
def killEdit (p : Proc) : Proc :=
  { p with killed := true, state := if p.state = .sleeping then .runnable else p.state }

/-- `kexit`'s `reparent` and wakeups on the record of a bystander. -/
def exitEdit (s : Sys) (i : Slot) (p : Proc) : Proc :=
  let p := reparent i s.initproc p
  let p := if ∃ k, (s.proc k).parent = some i then wake (s.initproc.map .proc) p else p
  wake ((reparent i s.initproc (s.proc i)).parent.map .proc) p

/-- The record of slot `j` after an event, from the record before it. -/
def edit (s : Sys) (j : Slot) (p : Proc) : Ev → Proc
  | .userinit c m root =>
    on j c (fun p => { allocproc p c s.nextpid m with cwd := some root, state := .runnable }) p
  | .schedule i => on j i (fun p => { p with state := .running, chan := none }) p
  | .yield i => on j i (fun p => { p with state := .runnable }) p
  | .sleep i ch => on j i (fun p => { p with state := .sleeping, chan := some ch }) p
  | .wakeup ch => wake (some ch) p
  | .trap i tf fatal => on j i (fun p => { p with tf := tf, killed := p.killed || fatal }) p
  | .ecall i tf =>
    on j i (fun p =>
      { p with tf := if p.killed then tf else { tf with epc := tf.epc + 4 } }) p
  | .dispatch i => on j i syscallEdit p
  | .setFilter i => on j i (fun p => { p with scFilter := p.tf.a0 }.setA0 0) p
  | .exec i none => on j i (·.setA0 (-1)) p
  | .exec i (some r) => on j i (execImage · r) p
  | .sysret i r =>
    on j i (fun p => { p with ofile := r.ofile, cwd := r.cwd, sz := r.sz }.setA0 r.value) p
  | .forkFull i => on j i (·.setA0 (-1)) p
  | .forkAlloc i c none =>
    on j i (·.setA0 (-1)) (on j c (fun p => freeproc (allocFound p s.nextpid)) p)
  | .forkAlloc i c (some m) =>
    on j c (fun p => forkCopy (s.proc i) (allocproc p c s.nextpid m)) p
  | .forkLink i c _ => on j c (fun p => { p with parent := some i }) p
  | .forkRun i c pid =>
    on j i (·.setA0 (BitVec.ofInt 64 pid)) (on j c (fun p => { p with state := .runnable }) p)
  | .forkret i (some r) => on j i (execImage · r) p
  | .killHit i k _ => on j i (·.setA0 0) (on j k killEdit p)
  | .killNone i _ => on j i (·.setA0 (-1)) p
  | .waitReap i c true =>
    on j i (·.setA0 (BitVec.ofInt 64 (s.proc c).pid)) (on j c freeproc p)
  | .waitReap i _ false => on j i (·.setA0 (-1)) p
  | .waitNone i => on j i (·.setA0 (-1)) p
  | .waitSleep i => on j i (fun p => { p with state := .sleeping, chan := some (.proc i) }) p
  | .exitClose i _ => on j i closeFiles p
  | .exitZombie i status =>
    on j i (fun p => { p with xstate := status, state := .zombie }) (exitEdit s i p)
  | .forkSkip _ _ | .forkret _ none | .killSkip _ _ _ | .ret _ => p

theorem on_on (j i : Slot) (f g : Proc → Proc) (p : Proc) :
    on j i g (on j i f p) = on j i (fun p => g (f p)) p := by
  unfold on
  split <;> rfl

variable {f : Proc → Proc}

/-- A field that `f` keeps. -/
theorem on_field {β : Type} (F : Proc → β) (i j : Slot) {p : Proc}
    (h : F (f p) = F p) : F (on j i f p) = F p := by
  unfold on
  split
  · exact h
  · rfl

theorem setProc_on (s : Sys) (i j : Slot) (f : Proc → Proc) :
    (s.setProc i (f (s.proc i))).proc j = on j i f (s.proc j) := by
  rw [setProc_proc]
  unfold on
  split
  · rename_i hj
    rw [hj]
  · rfl

theorem sysret_on (s : Sys) (i j : Slot) (v : BitVec 64) :
    (s.sysret i v).proc j = on j i (·.setA0 v) (s.proc j) :=
  setProc_on s i j (·.setA0 v)

/-- `syscall` touches the record of its caller only. -/
theorem syscall_proc (s : Sys) (i j : Slot) :
    (s.syscall i).proc j = on j i syscallEdit (s.proc j) := by
  unfold Sys.syscall
  by_cases hj : j = i
  · subst hj
    rw [on_same]
    unfold syscallEdit
    cases lookup (s.proc j).tf.a7 with
    | none => simp
    | some c => cases hf : filterAllows (s.proc j).scFilter c <;> simp [hf]
  · rw [on_ne hj]
    split
    · split <;> simp [hj]
    · simp [hj]

theorem exitZombie_proc (s : Sys) (i j : Slot) (status : Int) : (s.exitZombie i status).proc j =
      on j i (fun p => { p with xstate := status, state := .zombie }) (exitEdit s i (s.proc j)) :=
  setProc_on { s with proc := fun j => exitEdit s i (s.proc j) } i j
    (fun p => { p with xstate := status, state := .zombie })

/-- **One event, one slot.** -/
theorem next_proc (s : Sys) (e : Ev) (j : Slot) : (next s e).proc j = edit s j (s.proc j) e := by
  cases e with
  | userinit c m root =>
    exact setProc_on { s with nextpid := nextPid s.nextpid, initproc := some c } c j
      (fun p => { allocproc p c s.nextpid m with cwd := some root, state := .runnable })
  | schedule i => exact setProc_on s i j (fun p => { p with state := .running, chan := none })
  | yield i => exact setProc_on s i j (fun p => { p with state := .runnable })
  | sleep i ch => exact setProc_on s i j (fun p => { p with state := .sleeping, chan := some ch })
  | wakeup ch => rfl
  | trap i tf fatal =>
    exact setProc_on s i j (fun p => { p with tf := tf, killed := p.killed || fatal })
  | ecall i tf =>
    unfold next
    rw [apply_ite (fun t : Sys => t.proc j)]
    unfold edit
    by_cases hj : j = i
    · subst hj
      by_cases hk : (s.proc j).killed = true <;> simp [hk]
    · simp [hj, on_ne hj]
  | dispatch i => exact syscall_proc s i j
  | setFilter i =>
    show ((s.setProc i { s.proc i with scFilter := (s.proc i).tf.a0 }).sysret i 0).proc j = _
    rw [sysret_on, setProc_on s i j (fun p => { p with scFilter := p.tf.a0 }), on_on]
    rfl
  | exec i r =>
    cases r with
    | none => exact sysret_on s i j (-1)
    | some r => exact setProc_on s i j (execImage · r)
  | sysret i r =>
    show ((s.setProc i _).sysret i r.value).proc j = _
    rw [sysret_on,
      setProc_on s i j (fun p => { p with ofile := r.ofile, cwd := r.cwd, sz := r.sz }), on_on]
    rfl
  | forkSkip i k => rfl
  | forkFull i | killNone i pid | waitNone i => exact sysret_on s i j (-1)
  | forkAlloc i c m =>
    have hc := fun f => setProc_on { s with nextpid := nextPid s.nextpid } c j f
    cases m with
    | none =>
      exact (sysret_on _ i j (-1)).trans
        (congrArg _ (hc (fun p => freeproc (allocFound p s.nextpid))))
    | some m => exact hc (fun p => forkCopy (s.proc i) (allocproc p c s.nextpid m))
  | forkLink i c pid => exact setProc_on s c j (fun p => { p with parent := some i })
  | forkRun i c pid =>
    exact (sysret_on _ i j _).trans
      (congrArg _ (setProc_on s c j (fun p => { p with state := .runnable })))
  | forkret i r =>
    cases r with
    | none => rfl
    | some r => exact setProc_on { s with first := false } i j (execImage · r)
  | killSkip i k pid => rfl
  | killHit i k pid =>
    exact (sysret_on _ i j 0).trans (congrArg _ (setProc_on s k j killEdit))
  | waitReap i c copied =>
    cases copied with
    | false => exact sysret_on s i j (-1)
    | true => exact (sysret_on _ i j _).trans (congrArg _ (setProc_on s c j freeproc))
  | waitSleep i =>
    exact setProc_on s i j (fun p => { p with state := .sleeping, chan := some (.proc i) })
  | exitClose i status => exact setProc_on s i j closeFiles
  | exitZombie i status => exact exitZombie_proc s i j status
  | ret i =>
    show (if (s.proc i).killed then s.setPos i (.exiting (-1)) else s.setPos i .user).proc j = _
    split <;> rfl

/-! ## Positions -/

/-- Where the thread of slot `j` stands after an event. -/
def posEdit (s : Sys) (j : Slot) : Ev → Pos
  | .userinit c _ _ => if j = c then .forkret else s.pos j
  | .schedule _ | .yield _ | .sleep _ _ | .wakeup _ | .waitSleep _ => s.pos j
  | .trap i _ _ | .setFilter i | .exec i _ | .sysret i _ | .forkFull i | .forkRun i _ _
  | .killHit i _ _ | .killNone i _ | .waitReap i _ _
  | .waitNone i => if j = i then .ret else s.pos j
  | .ecall i _ =>
    if j = i then (if (s.proc i).killed then .exiting (-1) else .dispatch) else s.pos j
  | .dispatch i => if j = i then dispatchPos (s.proc i) else s.pos j
  | .forkSkip i k => if j = i then .forkScan (k + 1) else s.pos j
  | .forkAlloc i _ none => if j = i then .ret else s.pos j
  | .forkAlloc i c (some _) =>
    if j = i then .forkLink c s.nextpid else if j = c then .forkret else s.pos j
  | .forkLink i c pid => if j = i then .forkRun c pid else s.pos j
  | .forkret i _ => if j = i then .user else s.pos j
  | .killSkip i k pid => if j = i then .killScan pid (k + 1) else s.pos j
  | .exitClose i status => if j = i then .orphaning status else s.pos j
  | .exitZombie i _ => if j = i then .dead else s.pos j
  | .ret i => if j = i then (if (s.proc i).killed then .exiting (-1) else .user) else s.pos j

theorem next_pos (s : Sys) (e : Ev) (j : Slot) : (next s e).pos j = posEdit s j e := by
  cases e with
  | exec i r | forkret i r => cases r <;> simp [next, posEdit]
  | forkAlloc i c m => cases m <;> simp [next, Sys.forkAlloc, posEdit]
  | waitReap i c copied => cases copied <;> simp [next, posEdit]
  | dispatch i =>
    rw [next, posEdit, Sys.syscall, dispatchPos]
    cases lookup (s.proc i).tf.a7 with
    | none => simp
    | some c => cases hf : filterAllows (s.proc i).scFilter c <;> simp [hf]
  | ecall i tf | ret i =>
    rw [next, posEdit]
    split <;> simp
  | exitZombie i status => simp [next, Sys.exitZombie, posEdit]
  | _ => simp [next, posEdit]

/-! ## Who writes which field -/

/-- The system call in the trapframe is one that the filter forbids. -/
def Violates (p : Proc) : Prop :=
  ∃ c, lookup p.tf.a7 = some c ∧ filterAllows p.scFilter c = false

/-- The events that set `killed` in slot `j`: `kkill` stops there, or the process calls
    `setkilled` on itself. -/
def Marks (j : Slot) (p : Proc) : Ev → Prop
  | .killHit _ k _ => j = k
  | .trap i _ fatal => j = i ∧ fatal = true
  | .dispatch i => j = i ∧ Violates p
  | _ => False

/-- `allocproc` hands out slot `c`. -/
def Ev.creates (c : Slot) : Ev → Prop
  | .userinit k _ _ => c = k
  | .forkAlloc _ k (some _) => c = k
  | _ => False

/-- `freeproc` on slot `c`. -/
def Ev.frees (c : Slot) : Ev → Prop
  | .waitReap _ k copied => c = k ∧ copied = true
  | .forkAlloc _ k m => c = k ∧ m = none
  | _ => False

/-- The five things an event can do to `killed`, `pid`, `scFilter` and the UNUSED state of a
    slot. -/
inductive Kind (j : Slot) (p : Proc) (e : Ev) (p' : Proc) : Prop
  | quiet (hk : p'.killed = p.killed) (hp : p'.pid = p.pid) (hf : p'.scFilter = p.scFilter)
      (hs : p'.state = .unused → p.state = .unused)
  | filtered (he : e = .setFilter j) (hk : p'.killed = p.killed) (hp : p'.pid = p.pid)
      (hf : p'.scFilter = p.tf.a0) (hs : p'.state = .unused → p.state = .unused)
  | marked (hm : Marks j p e) (hk : p'.killed = true) (hp : p'.pid = p.pid)
      (hf : p'.scFilter = p.scFilter)
      (hs : p'.state = .unused → p.state = .unused)
  | freed (he : e.frees j) (hk : p'.killed = false) (hp : p'.pid = 0)
      (hf : p'.scFilter = p.scFilter)
  | created (he : e.creates j) (hk : p'.killed = p.killed) (hf : p'.scFilter = p.scFilter)
      (hs : p'.state ≠ .unused)

section Kinds

variable {j : Slot} {p p' : Proc} {e : Ev}

theorem Kind.refl : Kind j p e p := .quiet rfl rfl rfl id

/-- A change to another slot is no change. -/
theorem Kind.of_on {i : Slot} (h : j = i → Kind j p e (f p)) : Kind j p e (on j i f p) := by
  unfold on
  split
  · rename_i hj
    exact h hj
  · exact .refl

/-- A stored return value changes none of the four. -/
theorem Kind.setA0 (h : Kind j p e p') (i : Slot) (v : BitVec 64) :
    Kind j p e (on j i (·.setA0 v) p') := by
  unfold on
  split
  · cases h with
    | quiet hk hp hf hs => exact .quiet hk hp hf hs
    | filtered he hk hp hf hs => exact .filtered he hk hp hf hs
    | marked hm hk hp hf hs => exact .marked hm hk hp hf hs
    | freed he hk hp hf => exact .freed he hk hp hf
    | created he hk hf hs => exact .created he hk hf hs
  · exact h

/-- A slot that runs or sleeps is not UNUSED. -/
theorem Kind.of_live {i : Slot} (hk : (f p).killed = p.killed)
    (hp : (f p).pid = p.pid) (hf : (f p).scFilter = p.scFilter) (hs : (f p).state ≠ .unused) :
    Kind j p e (on j i f p) :=
  .of_on fun _ => .quiet hk hp hf (fun h => absurd h hs)

/-- `wakeup` and `reparent` do not touch an UNUSED slot's state. -/
theorem wake_unused {ch : Option Chan} {p : Proc} (h : (wake ch p).state = .unused) :
    p.state = .unused := by
  have h : (if p.state = .sleeping ∧ p.chan = ch then ProcState.runnable else p.state) = .unused :=
    h
  split at h
  · cases h
  · exact h

theorem exitEdit_quiet (s : Sys) (i : Slot) (p : Proc) :
    (exitEdit s i p).killed = p.killed ∧ (exitEdit s i p).pid = p.pid ∧
      (exitEdit s i p).scFilter = p.scFilter ∧
      ((exitEdit s i p).state = .unused → p.state = .unused) := by
  unfold exitEdit
  dsimp only
  split
  · exact ⟨rfl, rfl, rfl, fun h => wake_unused (wake_unused h)⟩
  · exact ⟨rfl, rfl, rfl, fun h => wake_unused h⟩

theorem syscallEdit_kind {i : Slot} (hj : j = i) : Kind j p (.dispatch i) (syscallEdit p) := by
  unfold syscallEdit
  split
  · rename_i c hc
    split
    · exact .refl
    · rename_i hf
      exact .marked ⟨hj, c, hc, by simpa using hf⟩ rfl rfl rfl id
  · exact .quiet rfl rfl rfl id

end Kinds

/-- **Every event is of one of the five kinds in every slot.** -/
theorem edit_kind (s : Sys) (j : Slot) (p : Proc) (e : Ev) : Kind j p e (edit s j p e) := by
  cases e with
  | userinit c m root =>
    rw [edit]
    exact .of_on fun hj => .created hj rfl rfl nofun
  | schedule i | yield i | sleep i ch | waitSleep i =>
    rw [edit]
    exact .of_live rfl rfl rfl nofun
  | wakeup ch =>
    rw [edit]
    exact .quiet rfl rfl rfl wake_unused
  | trap i tf fatal =>
    rw [edit]
    refine .of_on fun hj => ?_
    cases fatal with
    | false => exact .quiet (Bool.or_false _) rfl rfl id
    | true => exact .marked ⟨hj, rfl⟩ (Bool.or_true _) rfl rfl id
  | ecall i tf | sysret i r | forkLink i c pid | exitClose i status =>
    rw [edit]
    exact .of_on fun _ => .quiet rfl rfl rfl id
  | dispatch i =>
    rw [edit]
    exact .of_on fun hj => syscallEdit_kind hj
  | setFilter i =>
    rw [edit]
    exact .of_on fun hj => .filtered (hj ▸ rfl) rfl rfl rfl id
  | exec i r =>
    cases r with
    | none =>
      rw [edit]
      exact Kind.refl.setA0 i _
    | some r =>
      rw [edit]
      exact .of_on fun _ => .quiet rfl rfl rfl id
  | forkSkip i k | killSkip i k pid | ret i =>
    rw [edit]
    exact .refl
  | forkFull i | killNone i pid | waitNone i =>
    rw [edit]
    exact Kind.refl.setA0 i _
  | forkAlloc i c m =>
    cases m with
    | none =>
      rw [edit]
      have hc : Kind j p (.forkAlloc i c none)
          (on j c (fun p => freeproc (allocFound p s.nextpid)) p) :=
        .of_on fun hj => .freed ⟨hj, rfl⟩ rfl rfl rfl
      exact hc.setA0 i _
    | some m =>
      rw [edit]
      exact .of_on fun hj => .created hj rfl rfl nofun
  | forkRun i c pid =>
    rw [edit]
    have hc : Kind j p (.forkRun i c pid) (on j c (fun p => { p with state := .runnable }) p) :=
      .of_live rfl rfl rfl nofun
    exact hc.setA0 i _
  | forkret i r =>
    cases r with
    | none =>
      rw [edit]
      exact .refl
    | some r =>
      rw [edit]
      exact .of_on fun _ => .quiet rfl rfl rfl id
  | killHit i k pid =>
    rw [edit]
    have hk : Kind j p (.killHit i k pid) (on j k killEdit p) := by
      refine .of_on fun hj => .marked hj rfl rfl rfl fun h => ?_
      have h : (if p.state = .sleeping then ProcState.runnable else p.state) = .unused := h
      split at h
      · cases h
      · exact h
    exact hk.setA0 i _
  | waitReap i c copied =>
    cases copied with
    | false =>
      rw [edit]
      exact Kind.refl.setA0 i _
    | true =>
      rw [edit]
      have hc : Kind j p (.waitReap i c true) (on j c freeproc p) :=
        .of_on fun hj => .freed ⟨hj, rfl⟩ rfl rfl rfl
      exact hc.setA0 i _
  | exitZombie i status =>
    obtain ⟨hk, hp, hf, hs⟩ := exitEdit_quiet s i p
    rw [edit]
    unfold on
    split
    · exact .quiet hk hp hf nofun
    · exact .quiet hk hp hf hs

theorem next_kind (s : Sys) (j : Slot) (e : Ev) : Kind j (s.proc j) e ((next s e).proc j) := by
  rw [next_proc]
  exact edit_kind s j (s.proc j) e

section Others

variable {s : Sys} {e : Ev} {j : Slot}

/-- No event but its own `sys_set_filter` changes a slot's filter. -/
theorem scFilter_keep (h : e ≠ .setFilter j) :
    ((next s e).proc j).scFilter = (s.proc j).scFilter := by
  cases next_kind s j e with
  | quiet _ _ hf _ => exact hf
  | filtered he _ _ _ _ => exact absurd he h
  | marked _ _ _ hf _ => exact hf
  | freed _ _ _ hf => exact hf
  | created _ _ hf _ => exact hf

/-! ## Events seen from another slot -/

/-- The slot whose thread an event moves. -/
def Ev.actor : Ev → Option Slot
  | .userinit _ _ _ | .wakeup _ => none
  | .schedule i | .yield i | .sleep i _ | .trap i _ _ | .ecall i _ | .dispatch i | .setFilter i
  | .exec i _ | .sysret i _ | .forkSkip i _ | .forkFull i | .forkAlloc i _ _ | .forkLink i _ _
  | .forkRun i _ _ | .forkret i _ | .killSkip i _ _ | .killHit i _ _ | .killNone i _
  | .waitReap i _ _ | .waitNone i | .waitSleep i | .exitClose i _ | .exitZombie i _ | .ret i =>
    some i

theorem actor_runs (he : enabled s e = true) (ha : e.actor = some j) :
    (s.proc j).state = .running ∨ (s.proc j).state = .runnable := by
  cases e with
  | userinit | wakeup => cases ha
  | schedule i =>
    cases ha
    exact .inr (decide_eq_true_iff.mp he)
  | yield i =>
    cases ha
    exact .inl (decide_eq_true_iff.mp he)
  | forkSkip | forkAlloc | forkret | killSkip | killHit | waitReap | waitNone | waitSleep
  | exitClose =>
    cases ha
    exact .inl (decide_eq_true_iff.mp he).1.1
  | _ =>
    cases ha
    exact .inl (decide_eq_true_iff.mp he).1

/-- `allocproc` takes UNUSED slots only. -/
theorem creates_unused (he : enabled s e = true) (hc : e.creates j) :
    (s.proc j).state = .unused := by
  cases e with
  | userinit c m root =>
    obtain rfl : j = c := hc
    exact (decide_eq_true_iff.mp he).2.1
  | forkAlloc i c m =>
    cases m with
    | none => exact hc.elim
    | some m =>
      obtain rfl : j = c := hc
      exact (decide_eq_true_iff.mp he).2
  | _ => exact hc.elim

/-- What an event of another thread can do to slot `j`. -/
inductive Bystander (s : Sys) (e : Ev) (j : Slot) : Prop
  | quiet (hpos : (next s e).pos j = s.pos j)
      (hstate : ((next s e).proc j).state = (s.proc j).state ∨
        ((s.proc j).state = .sleeping ∧ ((next s e).proc j).state = .runnable))
      (hofile : ((next s e).proc j).ofile = (s.proc j).ofile)
      (hname : ((next s e).proc j).name = (s.proc j).name)
  | created (h : e.creates j)
  | refused (i : Slot) (h : e = .forkAlloc i j none)
  | reaped (i : Slot) (h : e = .waitReap i j true)
  | started (i : Slot) (pid : Int) (h : e = .forkRun i j pid)
      (hpos : (next s e).pos j = s.pos j) (hstate : ((next s e).proc j).state = .runnable)
      (hofile : ((next s e).proc j).ofile = (s.proc j).ofile)

/-- An event that leaves both the record and the position of `j` alone. -/
theorem Bystander.of_same (hpos : (next s e).pos j = s.pos j)
    (hproc : (next s e).proc j = s.proc j) : Bystander s e j :=
  .quiet hpos (.inl (by rw [hproc])) (by rw [hproc]) (by rw [hproc])

theorem wake_state (ch : Option Chan) (p : Proc) :
    (wake ch p).state = p.state ∨ (p.state = .sleeping ∧ (wake ch p).state = .runnable) := by
  by_cases h : p.state = .sleeping ∧ p.chan = ch
  · exact .inr ⟨h.1, if_pos h⟩
  · exact .inl (if_neg h)

theorem exitEdit_state (s : Sys) (i : Slot) (p : Proc) : (exitEdit s i p).state = p.state ∨
      (p.state = .sleeping ∧ (exitEdit s i p).state = .runnable) := by
  unfold exitEdit
  dsimp only
  split
  · -- the second wakeup finds the first one's work done, or does it
    rcases wake_state (s.initproc.map .proc) (reparent i s.initproc p) with h1 | ⟨h1, h1'⟩
    · rw [← show (wake (s.initproc.map .proc) (reparent i s.initproc p)).state = p.state from h1]
      exact wake_state _ _
    · refine .inr ⟨h1, ?_⟩
      rcases wake_state ((reparent i s.initproc (s.proc i)).parent.map .proc)
        (wake (s.initproc.map .proc) (reparent i s.initproc p)) with h2 | ⟨h2, _⟩
      · exact h2.trans h1'
      · rw [h1'] at h2
        cases h2
  · exact wake_state _ (reparent i s.initproc p)

theorem exitEdit_files (s : Sys) (i : Slot) (p : Proc) :
    (exitEdit s i p).ofile = p.ofile ∧ (exitEdit s i p).name = p.name := by
  unfold exitEdit
  dsimp only
  split <;> exact ⟨rfl, rfl⟩

theorem bystander (ha : e.actor ≠ some j) : Bystander s e j := by
  have hne : ∀ {i}, e.actor = some i → j ≠ i := fun h hj => ha (hj ▸ h)
  cases e with
  | userinit c m root =>
    by_cases hj : j = c
    · exact .created hj
    · refine .of_same ?_ ?_
      · rw [next_pos, posEdit, if_neg hj]
      · rw [next_proc, edit, on_ne hj]
  | wakeup ch => exact .quiet rfl (wake_state _ _) rfl rfl
  | forkAlloc i c m =>
    by_cases hj : j = c
    · cases m with
      | none => exact .refused i (by rw [hj])
      | some m => exact .created hj
    · cases m with
      | none =>
        refine .of_same ?_ ?_
        · rw [next_pos, posEdit, if_neg (hne rfl)]
        · rw [next_proc, edit, on_ne (hne rfl), on_ne hj]
      | some m =>
        refine .of_same ?_ ?_
        · rw [next_pos, posEdit, if_neg (hne rfl), if_neg hj]
        · rw [next_proc, edit, on_ne hj]
  | forkLink i c pid =>
    have hpos : (next s (.forkLink i c pid)).pos j = s.pos j := by
      rw [next_pos, posEdit, if_neg (hne rfl)]
    have hproc : (next s (.forkLink i c pid)).proc j =
        on j c (fun p => { p with parent := some i }) (s.proc j) := by rw [next_proc, edit]
    unfold on at hproc
    split at hproc <;>
      exact .quiet hpos (.inl (by rw [hproc])) (by rw [hproc]) (by rw [hproc])
  | forkRun i c pid =>
    by_cases hj : j = c
    · subst hj
      refine .started i pid rfl ?_ ?_ ?_
      · rw [next_pos, posEdit, if_neg (hne rfl)]
      · rw [next_proc, edit, on_ne (hne rfl), on_same]
      · rw [next_proc, edit, on_ne (hne rfl), on_same]
    · refine .of_same ?_ ?_
      · rw [next_pos, posEdit, if_neg (hne rfl)]
      · rw [next_proc, edit, on_ne (hne rfl), on_ne hj]
  | killHit i k pid =>
    have hpos : (next s (.killHit i k pid)).pos j = s.pos j := by
      rw [next_pos, posEdit, if_neg (hne rfl)]
    by_cases hj : j = k
    · have hproc : (next s (.killHit i k pid)).proc j = killEdit (s.proc j) := by
        rw [next_proc, edit, on_ne (hne rfl), hj, on_same]
      refine .quiet hpos ?_ (by rw [hproc]; rfl) (by rw [hproc]; rfl)
      rw [hproc]
      by_cases hs : (s.proc j).state = .sleeping
      · exact .inr ⟨hs, if_pos hs⟩
      · exact .inl (if_neg hs)
    · exact .of_same hpos (by rw [next_proc, edit, on_ne (hne rfl), on_ne hj])
  | waitReap i c copied =>
    have hpos : (next s (.waitReap i c copied)).pos j = s.pos j := by
      rw [next_pos, posEdit, if_neg (hne rfl)]
    cases copied with
    | false => exact .of_same hpos (by rw [next_proc, edit, on_ne (hne rfl)])
    | true =>
      by_cases hj : j = c
      · exact .reaped i (by rw [hj])
      · exact .of_same hpos (by rw [next_proc, edit, on_ne (hne rfl), on_ne hj])
  | exitZombie i status =>
    have hproc : (next s (.exitZombie i status)).proc j = exitEdit s i (s.proc j) := by
      rw [next_proc, edit, on_ne (hne rfl)]
    obtain ⟨hofile, hname⟩ := exitEdit_files s i (s.proc j)
    refine .quiet ?_ ?_ (by rw [hproc, hofile]) (by rw [hproc, hname])
    · rw [next_pos, posEdit, if_neg (hne rfl)]
    · rw [hproc]
      exact exitEdit_state s i (s.proc j)
  | schedule | yield | sleep | waitSleep =>
    exact .of_same rfl (by rw [next_proc, edit, on_ne (hne rfl)])
  | forkSkip | killSkip | ret =>
    refine .of_same ?_ ?_
    · rw [next_pos, posEdit, if_neg (hne rfl)]
    · rw [next_proc, edit]
  | exec i r | forkret i r =>
    refine .of_same ?_ ?_
    · rw [next_pos, posEdit, if_neg (hne rfl)]
    · cases r <;> rw [next_proc, edit] <;> rw [on_ne (hne rfl)]
  | _ =>
    refine .of_same ?_ ?_
    · rw [next_pos, posEdit, if_neg (hne rfl)]
    · rw [next_proc, edit, on_ne (hne rfl)]

end Others

end Xv6.Process
