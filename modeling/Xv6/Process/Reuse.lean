/-
  A slot's second life.

  `freeproc` and `allocproc` between them leave `sc_filter` alone: the next process of the slot
  is born with the filter of the last one (`filter_survives_reuse`: two runs that differ in a
  dead process's filter only, and its successor's first system call goes through in one of them
  and is fatal in the other). `slot_reuse` shows that nothing else leaks. In runs in which a
  process has no filter when it is reaped, two runs that differ in what the dead process left
  behind go through the same events, and from the moment the slot is handed out again their
  states are equal.

  The proof follows the slot: while it is a zombie or UNUSED, no event reads the fields in
  question (`SameBut.next_same`); when it is handed out, each of them is overwritten or known to be
  empty (`SameBut.created`).
-/
import Xv6.Process.Condemned

namespace Xv6.Process

open Xv6.Lib

variable {s t : Sys} {e : Ev} {i j p : Slot}

/-- A record without what its process has set itself: filter, fault history, open files,
    current directory and name. -/
def core (q : Proc) : Proc :=
  { q with scFilter := 0, faultCount := 0, ofile := fun _ => none, cwd := none, name := "" }

/-- Records with the same core agree on a field that `core` keeps. -/
theorem core_field {β : Type} {q q' : Proc} (hq : core q = core q') (F : Proc → β)
    (hF : ∀ q, F (core q) = F q) : F q = F q' := by
  rw [← hF q, ← hF q', hq]

/-- Two systems that differ only in those fields of slot `p`. -/
structure SameBut (p : Slot) (s t : Sys) : Prop where
  others : ∀ j, j ≠ p → s.proc j = t.proc j
  dead : core (s.proc p) = core (t.proc p)
  pos : s.pos = t.pos
  initproc : s.initproc = t.initproc
  nextpid : s.nextpid = t.nextpid
  first : s.first = t.first

/-- A field that `core` keeps is the same in every slot. -/
theorem SameBut.field {β : Type} (h : SameBut p s t) (F : Proc → β)
    (hF : ∀ q, F (core q) = F q) (j : Slot) : F (s.proc j) = F (t.proc j) := by
  by_cases hj : j = p
  · subst hj
    exact core_field h.dead F hF
  · rw [h.others j hj]

/-- The same events can happen: no guard reads the fields in question. -/
theorem SameBut.same_enabled (h : SameBut p s t) (e : Ev) : enabled s e = enabled t e := by
  have hstate := h.field Proc.state fun _ => rfl
  have hparent := h.field Proc.parent fun _ => rfl
  have hpid := h.field Proc.pid fun _ => rfl
  have hkilled := h.field Proc.killed fun _ => rfl
  have htf := h.field Proc.tf fun _ => rfl
  cases e <;>
    simp only [enabled, Sys.at_, Sys.zombieChild, hstate, hparent, hpid, hkilled, htf,
      h.pos, h.initproc, h.first]

/-- The table's other variables after an event. -/
theorem next_rest (s : Sys) (e : Ev) :
    (next s e).initproc = (match e with | .userinit c _ _ => some c | _ => s.initproc) ∧
    (next s e).nextpid = (match e with
      | .userinit _ _ _ | .forkAlloc _ _ _ => nextPid s.nextpid
      | _ => s.nextpid) ∧
    (next s e).first = (match e with | .forkret _ (some _) => false | _ => s.first) := by
  cases e with
  | exec i r | forkret i r => cases r <;> exact ⟨rfl, rfl, rfl⟩
  | forkAlloc i c m => cases m <;> exact ⟨rfl, rfl, rfl⟩
  | waitReap i c copied => cases copied <;> exact ⟨rfl, rfl, rfl⟩
  | ecall i tf | ret i =>
    rw [next]
    split <;> exact ⟨rfl, rfl, rfl⟩
  | dispatch i =>
    rw [next, Sys.syscall]
    split
    · split <;> exact ⟨rfl, rfl, rfl⟩
    · exact ⟨rfl, rfl, rfl⟩
  | _ => exact ⟨rfl, rfl, rfl⟩

section Dead

/-- Slot `p` has no thread. -/
def Dead (s : Sys) (p : Slot) : Prop :=
  (s.proc p).state = .zombie ∨ (s.proc p).state = .unused

theorem Dead.not_actor (hd : Dead s p) (he : enabled s e = true) (ha : e.actor = some i) :
    i ≠ p := by
  rintro rfl
  rcases actor_runs he ha with h | h <;> rcases hd with hd | hd <;> rw [hd] at h <;> cases h

theorem SameBut.same_exitEdit (h : SameBut p s t) (i : Slot) (q : Proc) :
    exitEdit s i q = exitEdit t i q := by
  have hparent := h.field Proc.parent fun _ => rfl
  unfold exitEdit
  simp only [hparent, h.initproc, reparent]

/-- The record of another slot changes in the same way in both systems. -/
theorem SameBut.edit_other (h : SameBut p s t) (hd : Dead s p) (he : enabled s e = true)
    (j : Slot) (q : Proc) : edit s j q e = edit t j q e := by
  cases e with
  | userinit c m root => rw [edit, edit, h.nextpid]
  | forkAlloc i c m =>
    cases m with
    | none => rw [edit, edit, h.nextpid]
    | some m => rw [edit, edit, h.nextpid, h.others i (hd.not_actor he rfl)]
  | waitReap i c copied =>
    cases copied with
    | false => rfl
    | true => rw [edit, edit, h.field Proc.pid (fun _ => rfl) c]
  | exitZombie i status => rw [edit, edit, h.same_exitEdit]
  | exec i r | forkret i r => cases r <;> rfl
  | _ => rfl

/-- Slot `p` itself changes in the same way up to the fields in question. -/
theorem core_edit {q q' : Proc} (hq : core q = core q') (ha : e.actor ≠ some p) :
    core (edit s p q e) = core (edit s p q' e) := by
  have hne : ∀ {i}, e.actor = some i → p ≠ i := fun h hp => ha (hp ▸ h)
  -- a change that does not read the fields in question
  have blind : ∀ (f : Proc → Proc), (∀ q, core (f q) = core (f (core q))) →
      core (f q) = core (f q') := by
    intro f hf
    rw [hf q, hf q', hq]
  have blind_on : ∀ (c : Slot) (f : Proc → Proc), (∀ q, core (f q) = core (f (core q))) →
      core (on p c f q) = core (on p c f q') := by
    intro c f hf
    unfold on
    split
    · exact blind f hf
    · exact hq
  cases e with
  | userinit c m root | forkLink i c pid => exact blind_on c _ fun _ => rfl
  | wakeup ch => exact blind _ fun _ => rfl
  | forkAlloc i c m =>
    cases m with
    | none =>
      rw [edit, edit, on_ne (hne rfl), on_ne (hne rfl)]
      exact blind_on c _ fun _ => rfl
    | some m => exact blind_on c _ fun _ => rfl
  | forkRun i c pid =>
    rw [edit, edit, on_ne (hne rfl), on_ne (hne rfl)]
    exact blind_on c _ fun _ => rfl
  | killHit i k pid =>
    rw [edit, edit, on_ne (hne rfl), on_ne (hne rfl)]
    exact blind_on k _ fun _ => rfl
  | waitReap i c copied =>
    cases copied with
    | false =>
      rw [edit, edit, on_ne (hne rfl), on_ne (hne rfl)]
      exact hq
    | true =>
      rw [edit, edit, on_ne (hne rfl), on_ne (hne rfl)]
      exact blind_on c _ fun _ => rfl
  | exitZombie i status =>
    rw [edit, edit, on_ne (hne rfl), on_ne (hne rfl)]
    refine blind (exitEdit s i) fun q => ?_
    unfold exitEdit
    dsimp only
    split <;> rfl
  | forkSkip | killSkip | ret => exact hq
  | exec i r =>
    cases r <;> rw [edit, edit, on_ne (hne rfl), on_ne (hne rfl)] <;> exact hq
  | forkret i r =>
    cases r with
    | none => exact hq
    | some r =>
      rw [edit, edit, on_ne (hne rfl), on_ne (hne rfl)]
      exact hq
  | _ =>
    rw [edit, edit, on_ne (hne rfl), on_ne (hne rfl)]
    exact hq

theorem SameBut.same_pos (h : SameBut p s t) (hd : Dead s p) (he : enabled s e = true)
    (j : Slot) : posEdit s j e = posEdit t j e := by
  have hkilled := h.field Proc.killed fun _ => rfl
  cases e with
  | dispatch i =>
    rw [posEdit, posEdit, h.others i (hd.not_actor he rfl), h.pos]
  | forkAlloc i c m => cases m <;> simp only [posEdit, h.pos, h.nextpid]
  | _ => simp only [posEdit, h.pos, hkilled]

/-- **While the slot is dead, nothing reads what its last process left.** -/
theorem SameBut.next_same (h : SameBut p s t) (hd : Dead s p) (he : enabled s e = true) :
    SameBut p (next s e) (next t e) where
  others j hj := by
    rw [next_proc, next_proc, h.others j hj]
    exact h.edit_other hd he j _
  dead := by
    rw [next_proc, next_proc, ← h.edit_other hd he p (t.proc p)]
    exact core_edit h.dead fun ha => hd.not_actor he ha rfl
  pos := by
    funext j
    rw [next_pos, next_pos]
    exact h.same_pos hd he j
  initproc := by
    rw [(next_rest s e).1, (next_rest t e).1, h.initproc]
  nextpid := by
    rw [(next_rest s e).2.1, (next_rest t e).2.1, h.nextpid]
  first := by
    rw [(next_rest s e).2.2, (next_rest t e).2.2, h.first]

end Dead

/-! ## What a free slot holds -/

/-- A reaped process has no filter. -/
def FilterOffAtReap (s : Sys) : Ev → Prop
  | .waitReap _ c copied => copied = true → (s.proc c).scFilter = 0
  | _ => True

instance (s : Sys) (e : Ev) : Decidable (FilterOffAtReap s e) :=
  match e with
  | .waitReap _ c copied => inferInstanceAs (Decidable (copied = true → (s.proc c).scFilter = 0))
  | .killHit .. | .userinit .. | .schedule _ | .yield _ | .sleep .. | .wakeup _ | .trap ..
  | .ecall .. | .dispatch _ | .setFilter _ | .exec .. | .sysret .. | .forkSkip .. | .forkFull _
  | .forkAlloc .. | .forkLink .. | .forkRun .. | .forkret .. | .killSkip .. | .killNone ..
  | .waitNone _ | .waitSleep _ | .exitClose .. | .exitZombie .. | .ret _ => isTrue trivial

/-- UNUSED slots have no filter, files or name, and files are closed from the middle of `kexit`
    on. -/
structure Clean (s : Sys) : Prop where
  unused : ∀ j, (s.proc j).state = .unused →
    (s.proc j).scFilter = 0 ∧ (s.proc j).ofile = (fun _ => none) ∧ (s.proc j).name = ""
  zombie : ∀ j, (s.proc j).state = .zombie → (s.proc j).ofile = fun _ => none
  closing : ∀ j status, (s.proc j).state ≠ .unused → s.pos j = .orphaning status →
    (s.proc j).ofile = fun _ => none

theorem clean_boot : Clean Sys.boot :=
  ⟨fun _ _ => ⟨rfl, rfl, rfl⟩, nofun, nofun⟩

/-- What `allocproc`'s success leaves in the slot. -/
theorem creates_next (he : enabled s e = true) (hc : e.creates j) :
    (((next s e).proc j).state = .used ∨ ((next s e).proc j).state = .runnable) ∧
      (next s e).pos j = .forkret := by
  cases e with
  | userinit c m root =>
    obtain rfl : j = c := hc
    exact ⟨.inr (by rw [next_proc, edit, on_same]), by rw [next_pos, posEdit, if_pos rfl]⟩
  | forkAlloc i c m =>
    cases m with
    | none => exact hc.elim
    | some m =>
      obtain rfl : j = c := hc
      have hne : j ≠ i := by
        rintro rfl
        have hrun : (s.proc j).state = .running := (decide_eq_true_iff.mp he).1.1
        rw [creates_unused he (j := j) rfl] at hrun
        cases hrun
      refine ⟨.inl ?_, by rw [next_pos, posEdit, if_neg hne, if_pos rfl]⟩
      rw [next_proc, edit, on_same]
      rfl
  | _ => exact hc.elim

/-- A thread's own event leaves it alive, or is the end of `kexit`. -/
theorem own_state (he : enabled s e = true) (ha : e.actor = some j) :
    (((next s e).proc j).state ≠ .unused ∧ ((next s e).proc j).state ≠ .zombie) ∨
      ∃ status, e = .exitZombie j status := by
  have hrun := actor_runs he ha
  have alive : ∀ {st : ProcState}, st = (s.proc j).state → st ≠ .unused ∧ st ≠ .zombie := by
    rintro st rfl
    rcases hrun with h | h <;> rw [h] <;> simp
  -- the slot that `allocproc` or `freeproc` works on is not the caller's
  have other : ∀ {c : Slot}, (s.proc c).state = .unused ∨ (s.proc c).state = .zombie → j ≠ c := by
    rintro c hc rfl
    rcases hc with hc | hc
    · exact (alive rfl).1 hc
    · exact (alive rfl).2 hc
  rw [next_proc]
  cases e with
  | userinit | wakeup => cases ha
  | exitZombie i status =>
    cases ha
    exact .inr ⟨status, rfl⟩
  | schedule | yield | sleep | waitSleep =>
    cases ha
    rw [edit, on_same]
    exact .inl (by simp)
  | dispatch i =>
    cases ha
    rw [edit, on_same, syscallEdit]
    split
    · split <;> exact .inl (alive rfl)
    · exact .inl (alive rfl)
  | exec i r | forkret i r =>
    cases ha
    cases r <;> rw [edit] <;> exact .inl (alive (by simp [execImage, Proc.setA0]))
  | forkAlloc i c m =>
    cases ha
    have hc : j ≠ c := other (.inl (decide_eq_true_iff.mp he).2)
    cases m with
    | none =>
      rw [edit, on_ne hc, on_same]
      exact .inl (alive rfl)
    | some m =>
      rw [edit, on_ne hc]
      exact .inl (alive rfl)
  | forkLink i c pid =>
    cases ha
    rw [edit]
    exact .inl (alive (on_field Proc.state c j rfl))
  | forkRun i c pid =>
    cases ha
    rw [edit, on_same]
    unfold on
    split
    · exact .inl (by simp [Proc.setA0])
    · exact .inl (alive rfl)
  | killHit i k pid =>
    cases ha
    rw [edit, on_same]
    refine .inl (alive (on_field Proc.state k j ?_))
    refine if_neg fun h => ?_
    rcases hrun with h' | h' <;> rw [h'] at h <;> cases h
  | waitReap i c copied =>
    cases ha
    cases copied with
    | false =>
      rw [edit, on_same]
      exact .inl (alive rfl)
    | true =>
      have hc : j ≠ c := other (.inr (decide_eq_true_iff.mp he).2.1.2)
      rw [edit, on_ne hc, on_same]
      exact .inl (alive rfl)
  | forkSkip | killSkip | ret =>
    cases ha
    rw [edit]
    exact .inl (alive rfl)
  | _ =>
    cases ha
    rw [edit, on_same]
    exact .inl (alive rfl)

/-- What `freeproc` leaves in a reaped slot. -/
theorem reaped_next (hc : Clean s) {c : Slot} (he : enabled s (.waitReap i c true) = true)
    (hok : FilterOffAtReap s (.waitReap i c true)) : let q := (next s (.waitReap i c true)).proc c
    q.state = .unused ∧ q.scFilter = 0 ∧ q.ofile = (fun _ => none) ∧ q.name = "" := by
  have hz : (s.proc c).state = .zombie := (decide_eq_true_iff.mp he).2.1.2
  have hne : c ≠ i := by
    rintro rfl
    have hrun : (s.proc c).state = .running := (decide_eq_true_iff.mp he).1.1
    rw [hz] at hrun
    cases hrun
  intro q
  have hq : q = freeproc (s.proc c) := by
    show (next s (.waitReap i c true)).proc c = _
    rw [next_proc, edit, on_ne hne, on_same]
  rw [hq]
  exact ⟨rfl, hok rfl, hc.zombie c hz, rfl⟩

/-- What the failed `allocproc` leaves in the slot. -/
theorem refused_next (hc : Clean s) {c : Slot} (he : enabled s (.forkAlloc i c none) = true) :
    let q := (next s (.forkAlloc i c none)).proc c
    q.state = .unused ∧ q.scFilter = 0 ∧ q.ofile = (fun _ => none) ∧ q.name = "" := by
  have hu : (s.proc c).state = .unused := (decide_eq_true_iff.mp he).2
  have hne : c ≠ i := by
    rintro rfl
    have hrun : (s.proc c).state = .running := (decide_eq_true_iff.mp he).1.1
    rw [hu] at hrun
    cases hrun
  obtain ⟨hf, ho, -⟩ := hc.unused c hu
  intro q
  have hq : q = freeproc (allocFound (s.proc c) s.nextpid) := by
    show (next s (.forkAlloc i c none)).proc c = _
    rw [next_proc, edit, on_ne hne, on_same]
  rw [hq]
  exact ⟨rfl, hf, ho, rfl⟩

/-- The thread in the middle of `kexit` opens no files. -/
theorem own_closing (hc : Clean s) (he : enabled s e = true) (ha : e.actor = some j)
    {status : Int} (hp : (next s e).pos j = .orphaning status) :
    ((next s e).proc j).ofile = fun _ => none := by
  have hlive : (s.proc j).state ≠ .unused := by
    rcases actor_runs he ha with h | h <;> rw [h] <;> exact nofun
  rw [next_pos] at hp
  have moved : ∀ {q : Pos}, (if j = j then q else s.pos j) = .orphaning status →
      q = .orphaning status := fun h => by rwa [if_pos rfl] at h
  cases e with
  | userinit | wakeup => cases ha
  | schedule i | yield i =>
    cases ha
    rw [next_proc, edit, on_same]
    exact hc.closing j status hlive hp
  | sleep i ch =>
    cases ha
    have hsleep : (s.pos j).maySleep = true := (decide_eq_true_iff.mp he).2
    rw [show s.pos j = .orphaning status from hp] at hsleep
    cases hsleep
  | waitSleep i =>
    cases ha
    have hwait : s.pos j = .waiting := (decide_eq_true_iff.mp he).1.2
    rw [show s.pos j = .orphaning status from hp] at hwait
    cases hwait
  | exitClose i st =>
    cases ha
    rw [next_proc, edit, on_same]
    rfl
  | dispatch i =>
    cases ha
    have h := moved hp
    unfold dispatchPos at h
    split at h
    · rename_i c _
      split at h
      · cases c <;> cases h
      · cases h
    · cases h
  | ecall i tf | ret i =>
    cases ha
    have h := moved hp
    split at h <;> cases h
  | forkAlloc i c m =>
    cases ha
    cases m <;> rw [posEdit, if_pos rfl] at hp <;> cases hp
  | _ =>
    cases ha
    cases moved hp

theorem clean_step (hc : Clean s) (hw : ForkWf s) (he : enabled s e = true)
    (hok : FilterOffAtReap s e) : Clean (next s e) := by
  constructor
  · intro j hj
    by_cases ha : e.actor = some j
    · rcases own_state he ha with ⟨h, _⟩ | ⟨status, rfl⟩
      · exact absurd hj h
      · rw [next_proc, edit, on_same] at hj
        cases hj
    · cases bystander (s := s) ha with
      | quiet _ hstate hofile hname =>
        rcases hstate with h | ⟨_, h⟩
        · have hset : e ≠ .setFilter j := by
            rintro rfl
            exact ha rfl
          rw [hofile, hname, scFilter_keep hset]
          exact hc.unused j (h ▸ hj)
        · rw [h] at hj
          cases hj
      | created h => rcases (creates_next he h).1 with h | h <;> rw [h] at hj <;> cases hj
      | refused i h =>
        subst h
        exact (refused_next hc he).2
      | reaped i h =>
        subst h
        exact (reaped_next hc he hok).2
      | started _ _ _ _ h _ =>
        rw [h] at hj
        cases hj
  · intro j hj
    by_cases ha : e.actor = some j
    · rcases own_state he ha with ⟨_, h⟩ | ⟨status, rfl⟩
      · exact absurd hj h
      · obtain ⟨hrun, hpos⟩ : s.at_ j (.orphaning status) := decide_eq_true_iff.mp he
        rw [next_proc, edit, on_same]
        exact (exitEdit_files s j (s.proc j)).1.trans
          (hc.closing j status (by rw [hrun]; simp) hpos)
    · cases bystander (s := s) ha with
      | quiet _ hstate hofile _ =>
        rcases hstate with h | ⟨_, h⟩
        · rw [hofile]
          exact hc.zombie j (h ▸ hj)
        · rw [h] at hj
          cases hj
      | created h => rcases (creates_next he h).1 with h | h <;> rw [h] at hj <;> cases hj
      | refused i h =>
        subst h
        rw [(refused_next hc he).1] at hj
        cases hj
      | reaped i h =>
        subst h
        rw [(reaped_next hc he hok).1] at hj
        cases hj
      | started _ _ _ _ h _ =>
        rw [h] at hj
        cases hj
  · intro j status hj hp
    by_cases ha : e.actor = some j
    · exact own_closing hc he ha hp
    · cases bystander (s := s) ha with
      | quiet hpos hstate hofile _ =>
        rw [hofile]
        refine hc.closing j status ?_ (hpos ▸ hp)
        rcases hstate with h | ⟨h, _⟩
        · exact h ▸ hj
        · rw [h]
          simp
      | created h =>
        rw [(creates_next he h).2] at hp
        cases hp
      | refused i h =>
        subst h
        exact absurd (refused_next hc he).1 hj
      | reaped i h =>
        subst h
        exact absurd (reaped_next hc he hok).1 hj
      | started i pid h hsame _ hofile =>
        subst h
        have hpos : s.pos i = .forkRun j pid := (decide_eq_true_iff.mp he).2
        have hused : (s.proc j).state = .used := hw.used (i := i) (by rw [hpos]; rfl)
        rw [hofile]
        exact hc.closing j status (by rw [hused]; simp) (hsame ▸ hp)

theorem clean_run {tr : List Ev} (h : Run (Where FilterOffAtReap (Fires step)) Sys.boot tr s) :
    Clean s ∧ ForkWf s := by
  refine h.inv_state (I := fun s => Clean s ∧ ForkWf s) ⟨clean_boot, forkWf_boot⟩ ?_
  rintro s e s' ⟨hc, hw⟩ ⟨hok, hs⟩
  obtain ⟨he, rfl⟩ := step_eq_some.mp hs
  exact ⟨clean_step hc hw he hok, forkWf_step hw he⟩

/-! ## The next process of the slot -/

/-- The child's record depends on the slot's filter and open files, and on nothing else that the
    last process could set. -/
theorem forkCopy_core {q q' : Proc} (hq : core q = core q') (hf : q.scFilter = q'.scFilter)
    (ho : q.ofile = q'.ofile) (parent : Proc) (pid : Int) (m : ProcPages) :
    forkCopy parent (allocproc q p pid m) = forkCopy parent (allocproc q' p pid m) := by
  have hchan : q.chan = q'.chan := core_field hq Proc.chan fun _ => rfl
  have hkilled : q.killed = q'.killed := core_field hq Proc.killed fun _ => rfl
  have hxstate : q.xstate = q'.xstate := core_field hq Proc.xstate fun _ => rfl
  have hparent : q.parent = q'.parent := core_field hq Proc.parent fun _ => rfl
  simp only [forkCopy, allocproc, allocFound, hchan, hkilled, hxstate, hparent, hf, ho]

theorem userinit_core {q q' : Proc} (hq : core q = core q') (hf : q.scFilter = q'.scFilter)
    (ho : q.ofile = q'.ofile) (hn : q.name = q'.name) (pid : Int) (m : ProcPages) (root : Nat) :
    { allocproc q p pid m with cwd := some root, state := .runnable } =
      { allocproc q' p pid m with cwd := some root, state := .runnable } := by
  have hchan : q.chan = q'.chan := core_field hq Proc.chan fun _ => rfl
  have hkilled : q.killed = q'.killed := core_field hq Proc.killed fun _ => rfl
  have hxstate : q.xstate = q'.xstate := core_field hq Proc.xstate fun _ => rfl
  have hparent : q.parent = q'.parent := core_field hq Proc.parent fun _ => rfl
  have hsz : q.sz = q'.sz := core_field hq Proc.sz fun _ => rfl
  have htf : q.tf = q'.tf := core_field hq Proc.tf fun _ => rfl
  simp only [allocproc, allocFound, hchan, hkilled, hxstate, hparent, hsz, htf, hf, ho, hn]

/-- **When the slot is handed out, the two systems become equal.** -/
theorem SameBut.created (h : SameBut p s t) (hs : Clean s) (ht : Clean t)
    (he : enabled s e = true) (hc : e.creates p) : next s e = next t e := by
  have hu : (s.proc p).state = .unused := creates_unused he hc
  have hu' : (t.proc p).state = .unused := (h.field Proc.state (fun _ => rfl) p) ▸ hu
  obtain ⟨hf, ho, hn⟩ := hs.unused p hu
  obtain ⟨hf', ho', hn'⟩ := ht.unused p hu'
  have hsame := h.next_same (.inr hu) he
  have hp : (next s e).proc p = (next t e).proc p := by
    rw [next_proc, next_proc, ← h.edit_other (.inr hu) he p (t.proc p)]
    cases e with
    | userinit c m root =>
      obtain rfl : p = c := hc
      rw [edit, edit, on_same, on_same]
      exact userinit_core h.dead (hf.trans hf'.symm) (ho.trans ho'.symm) (hn.trans hn'.symm) _ _ _
    | forkAlloc i c m =>
      cases m with
      | none => exact hc.elim
      | some m =>
        obtain rfl : p = c := hc
        rw [edit, edit, on_same, on_same]
        exact forkCopy_core h.dead (hf.trans hf'.symm) (ho.trans ho'.symm) _ _ _
    | _ => exact hc.elim
  have hproc : (next s e).proc = (next t e).proc := by
    funext j
    by_cases hj : j = p
    · rw [hj, hp]
    · exact hsame.others j hj
  exact Sys.ext hproc hsame.pos hsame.initproc hsame.nextpid hsame.first

/-- A dead slot stays dead until it is handed out. -/
theorem dead_step (hd : Dead s p) (hw : ForkWf s) (he : enabled s e = true)
    (hc : ¬ e.creates p) : Dead (next s e) p := by
  have ha : e.actor ≠ some p := fun ha => hd.not_actor he ha rfl
  cases bystander (s := s) ha with
  | quiet _ hstate _ _ =>
    rcases hstate with h | ⟨h, _⟩
    · unfold Dead
      rw [h]
      exact hd
    · rcases hd with hd | hd <;> rw [hd] at h <;> cases h
  | created h => exact absurd h hc
  | refused i h | reaped i h =>
    subst h
    exact .inr (by rw [next_proc, edit, on_ne (fun h => ha (by rw [h]; rfl)), on_same]; rfl)
  | started i pid h =>
    subst h
    have hpos : s.pos i = .forkRun p pid := (decide_eq_true_iff.mp he).2
    have hused : (s.proc p).state = .used := hw.used (i := i) (by rw [hpos]; rfl)
    rcases hd with hd | hd <;> rw [hused] at hd <;> cases hd

/-- Two runs in step: equal, or different only in the slot that nobody has taken yet. -/
def Twins (p : Slot) (tr : List Ev) (s t : Sys) : Prop :=
  (Clean s ∧ ForkWf s) ∧ (Clean t ∧ ForkWf t) ∧
    (s = t ∨ (SameBut p s t ∧ Dead s p ∧ ∀ e ∈ tr, ¬ e.creates p))

theorem twins_step {tr : List Ev} {s' t' : Sys} (h : Twins p tr s t)
    (hs : Where FilterOffAtReap (Fires step) s e s')
    (ht : Where FilterOffAtReap (Fires step) t e t') : Twins p (tr ++ [e]) s' t' := by
  obtain ⟨⟨hcs, hws⟩, ⟨hct, hwt⟩, hrel⟩ := h
  obtain ⟨hoks, hs⟩ := hs
  obtain ⟨hokt, ht⟩ := ht
  obtain ⟨hes, rfl⟩ := step_eq_some.mp hs
  obtain ⟨het, rfl⟩ := step_eq_some.mp ht
  refine ⟨⟨clean_step hcs hws hes hoks, forkWf_step hws hes⟩,
    ⟨clean_step hct hwt het hokt, forkWf_step hwt het⟩, ?_⟩
  rcases hrel with rfl | ⟨hsame, hd, htr⟩
  · exact .inl rfl
  · by_cases hc : e.creates p
    · exact .inl (hsame.created hcs hct hes hc)
    · refine .inr ⟨hsame.next_same hd hes, dead_step hd hws hes hc, ?_⟩
      intro e' he'
      rcases List.mem_append.mp he' with he' | he'
      · exact htr e' he'
      · rw [List.mem_singleton.mp he']
        exact hc

/-- **Slots do not leak, apart from the filter.** Two runs, in which processes have no filter when
    they are reaped, reach states that differ only in what the dead process of slot `p` had set.
    Whatever the same further events lead to: the same events are possible next; once the slot
    has been handed out again the two states are equal, so that its new process gets the same
    answer to every system call; and `allocproc` hands the slot out with no open files and no
    filter. -/
theorem slot_reuse {tr₁ tr₂ tr : List Ev} {s₁ s₂ t₁ t₂ : Sys}
    (h₁ : Run (Where FilterOffAtReap (Fires step)) Sys.boot tr₁ s₁)
    (h₂ : Run (Where FilterOffAtReap (Fires step)) Sys.boot tr₂ s₂)
    (hz : (s₁.proc p).state = .zombie) (hsame : SameBut p s₁ s₂)
    (r₁ : Run (Where FilterOffAtReap (Fires step)) s₁ tr t₁)
    (r₂ : Run (Where FilterOffAtReap (Fires step)) s₂ tr t₂) :
    (∀ e, (step t₁ e).isSome = (step t₂ e).isSome) ∧
    ((∃ e ∈ tr, e.creates p) → t₁ = t₂ ∧
      ∀ c, filterAllows (t₁.proc p).scFilter c = filterAllows (t₂.proc p).scFilter c) ∧
    (∀ m e, enabled t₁ e = true → e.creates p →
      (∀ fd, (allocproc (t₁.proc p) p t₁.nextpid m).ofile fd = none) ∧
      ((next t₁ e).proc p).scFilter = 0) := by
  have h0 : Twins p [] s₁ s₂ := ⟨clean_run h₁, clean_run h₂, .inr ⟨hsame, .inl hz, nofun⟩⟩
  obtain ⟨⟨hclean, _⟩, _, hrel⟩ : Twins p tr t₁ t₂ :=
    Run.lockstep h0 (fun _ _ _ _ _ _ h hs ht => twins_step h hs ht) r₁ r₂
  refine ⟨?_, ?_, ?_⟩
  · intro e
    have hen : enabled t₁ e = enabled t₂ e := by
      rcases hrel with rfl | ⟨hsame, _⟩
      · rfl
      · exact hsame.same_enabled e
    unfold step
    rw [hen]
    split <;> rfl
  · rintro ⟨e, he, hc⟩
    rcases hrel with rfl | ⟨_, _, hno⟩
    · exact ⟨rfl, fun _ => rfl⟩
    · exact absurd hc (hno e he)
  · intro m e he hc
    obtain ⟨hf, ho, -⟩ := hclean.unused p (creates_unused he hc)
    refine ⟨fun fd => congrFun ho fd, ?_⟩
    rw [scFilter_keep (fun h => by rw [h] at hc; exact hc), hf]

/-- A child of the first process goes through `life` and exits. -/
def deadChildRun (life : List Ev) : List Ev :=
  bootRun ++ forkChild 2 ++ [.schedule 1, .forkret 1 none] ++ life ++
    Syscall.call .exit 1 0 ++ [.exitClose 1 0, .exitZombie 1 0]

/-- Its parent reaps it and forks again; the new child of slot 1 calls `getpid`. -/
def secondChildRun : List Ev :=
  Syscall.call .wait 0 0 ++ [.waitReap 0 1 true, .ret 0] ++ forkChild 3 ++
    [.schedule 1, .forkret 1 none, .ecall 1 ⟨0, 0, 0, 0, 11⟩]

def execLife (name : String) : List Ev :=
  Syscall.call .exec 1 0 ++ [.exec 1 (some ⟨4096, 9, name, 0, 0, 0, 1⟩), .ret 1]

def filterLife (mask : BitVec 64) : List Ev :=
  Syscall.call .setFilter 1 mask ++ [.setFilter 1, .ret 1]

/-- `SameBut` as a test. -/
def sameButTest (p : Slot) (s t : Sys) : Bool :=
  (∀ j, j ≠ p → s.proc j = t.proc j) ∧ core (s.proc p) = core (t.proc p) ∧ s.pos = t.pos ∧
    s.initproc = t.initproc ∧ s.nextpid = t.nextpid ∧ s.first = t.first

theorem sameBut_of_test (h : sameButTest p s t = true) : SameBut p s t := by
  obtain ⟨h1, h2, h3, h4, h5, h6⟩ := decide_eq_true_iff.mp h
  exact ⟨h1, h2, h3, h4, h5, h6⟩

/-- The dead child ran another program in the second run. -/
theorem slot_reuse_execLife :
    ∃ s₁ s₂ t₁ t₂, exec (guarded FilterOffAtReap step) Sys.boot (deadChildRun (execLife "cat")) =
      some s₁ ∧
      exec (guarded FilterOffAtReap step) Sys.boot (deadChildRun (execLife "ls")) = some s₂ ∧
      (s₁.proc 1).name = "cat" ∧ (s₂.proc 1).name = "ls" ∧
      exec (guarded FilterOffAtReap step) s₁ secondChildRun = some t₁ ∧
      exec (guarded FilterOffAtReap step) s₂ secondChildRun = some t₂ ∧ t₁ = t₂ := by
  obtain ⟨s₁, h1, h⟩ :=
    exec_any (guarded FilterOffAtReap step) Sys.boot (deadChildRun (execLife "cat"))
    (fun s₁ => (exec (guarded FilterOffAtReap step) Sys.boot (deadChildRun (execLife "ls"))).any
      fun s₂ => (s₁.proc 1).state = .zombie ∧ (s₁.proc 1).name = "cat" ∧
        (s₂.proc 1).name = "ls" ∧ sameButTest 1 s₁ s₂ ∧
        (exec (guarded FilterOffAtReap step) s₁ secondChildRun).any (fun _ => true) ∧
        (exec (guarded FilterOffAtReap step) s₂ secondChildRun).any fun _ => true)
    (by decide +kernel)
  obtain ⟨s₂, h2, h⟩ := exec_any _ _ _ _ h
  obtain ⟨hz, hn1, hn2, hsame, hx1, hx2⟩ := decide_eq_true_iff.mp h
  obtain ⟨t₁, hx1, -⟩ := exec_any _ _ _ _ hx1
  obtain ⟨t₂, hx2, -⟩ := exec_any _ _ _ _ hx2
  have hr := slot_reuse (run_where_of_exec h1) (run_where_of_exec h2) hz (sameBut_of_test hsame)
    (run_where_of_exec hx1) (run_where_of_exec hx2)
  have hc : ∃ e ∈ secondChildRun, e.creates 1 :=
    ⟨.forkAlloc 0 1 (some ⟨5, 6, 7⟩), by simp [secondChildRun, forkChild, Syscall.call], rfl⟩
  exact ⟨s₁, s₂, t₁, t₂, h1, h2, hn1, hn2, hx1, hx2, (hr.2.1 hc).1⟩

/-- The dead child had set the filter 4 (`exit` only) in one run and 0 in the other. The next
    process of its slot, which never sets a filter, may call `getpid` in the second run only. -/
theorem filter_survives_reuse :
    ∃ s₁ s₂ t₁ t₂, Run (Fires step) Sys.boot (deadChildRun (filterLife 4)) s₁ ∧
      Run (Fires step) Sys.boot (deadChildRun (filterLife 0)) s₂ ∧
      (s₁.proc 1).state = .zombie ∧ SameBut 1 s₁ s₂ ∧
      Run (Fires step) s₁ secondChildRun t₁ ∧ Run (Fires step) s₂ secondChildRun t₂ ∧
      lookup (t₁.proc 1).tf.a7 = some .getpid ∧
      filterAllows (t₁.proc 1).scFilter .getpid = false ∧
      filterAllows (t₂.proc 1).scFilter .getpid = true := by
  obtain ⟨s₁, h1, h⟩ := exec_any step Sys.boot (deadChildRun (filterLife 4))
    (fun s₁ => (exec step Sys.boot (deadChildRun (filterLife 0))).any fun s₂ =>
      (s₁.proc 1).state = .zombie ∧ sameButTest 1 s₁ s₂ ∧
        (exec step s₁ secondChildRun).any (fun t₁ => lookup (t₁.proc 1).tf.a7 = some .getpid ∧
          filterAllows (t₁.proc 1).scFilter .getpid = false) ∧
        (exec step s₂ secondChildRun).any fun t₂ =>
          filterAllows (t₂.proc 1).scFilter .getpid)
    (by decide +kernel)
  obtain ⟨s₂, h2, h⟩ := exec_any _ _ _ _ h
  obtain ⟨hz, hsame, hx1, hx2⟩ := decide_eq_true_iff.mp h
  obtain ⟨t₁, hx1, hf1⟩ := exec_any _ _ _ _ hx1
  obtain ⟨t₂, hx2, hf2⟩ := exec_any _ _ _ _ hx2
  obtain ⟨hc, hf1⟩ := decide_eq_true_iff.mp hf1
  exact ⟨s₁, s₂, t₁, t₂, run_of_exec h1, run_of_exec h2, hz, sameBut_of_test hsame,
    run_of_exec hx1, run_of_exec hx2, hc, hf1, hf2⟩

end Xv6.Process
