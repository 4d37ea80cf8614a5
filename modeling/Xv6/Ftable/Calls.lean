/-
  The calls keep the invariant of the open files, and what follows for every run.

  The count of an entry is not at all times the number of its descriptors with the references that
  calls hold: `sys_dup` installs the descriptor before it takes the reference, and `kexit` clears
  the descriptor after it has dropped it. In the second case the entry may even have been recycled
  when the descriptor is cleared (`exit_leaves_stale_descriptor`).
-/
import Xv6.Ftable.Refs

namespace Xv6.Ftable

open Lib Function List

variable {T : Type}

theorem fdalloc_none {o : Fd → Option Ent} {fd : Fd} (h : fdalloc o = some fd) : o fd = none := by
  have := List.find?_some h
  simpa using this

theorem argfd_some {o : Fd → Option Ent} {n : ℤ} {fd : Fd} {f : Ent}
    (h : argfd o n = some (fd, f)) : o fd = some f := by
  unfold argfd at h
  split at h
  · obtain ⟨g, hg, he⟩ := Option.map_eq_some_iff.mp h
    cases he
    exact hg
  · cases h

namespace St.Inv

variable [Fintype T] [DecidableEq T] {s s' : St T} {p : T} {f : Ent} {q : Pc T} {fd : Fd}
  {v : Option Ent}

section

variable {q0 : Pc T}

section

variable (h : s.Inv) (hpc : s.pc p = q0) (hself : ∀ r, q0 ≠ .embryo r)

include h hpc hself

/-- A descriptor is set or cleared, and the process goes on. -/
theorem setFd (hcl : q.closing = q0.closing)
    (hcount : ∀ g, q.share (update (s.ofile p) fd v) g = q0.share (s.ofile p) g)
    (hloc : q.Local (update (s.ofile p) fd v)) (hforks : q.forks = none)
    (hfresh : ∀ g ∈ q.fresh, g ∈ q0.fresh) : ((s.setFd p fd v).jump p q).Inv := by
  subst hpc
  refine h.own rfl rfl rfl rfl h.quiet (h.not_child hself) hcl hcount hloc (fun np i hi => ?_)
    hfresh
  rw [hforks] at hi
  cases hi

/-- A slot is filled with an entry that the call held. -/
theorem fill (hfd : fdalloc (s.ofile p) = some fd)
    (hcl : q.closing = q0.closing) (hheld : q0.held = f :: q.held) (howed : q.owed = q0.owed)
    (hloc : q.Local (update (s.ofile p) fd (some f))) (hforks : q.forks = none)
    (hfresh : ∀ g ∈ q.fresh, g ∈ q0.fresh) : ((s.setFd p fd (some f)).jump p q).Inv := by
  refine h.setFd hpc hself hcl (fun g => ?_) hloc hforks hfresh
  unfold Pc.share
  rw [slots_fill (fdalloc_none hfd), hheld, howed, count_cons]
  simp only [beq_iff_eq]
  split <;> push_cast <;> ring

/-- A step that leaves the descriptors and the references as they are. -/
theorem move (hcl : q.closing = q0.closing)
    (hheld : q.held = q0.held) (howed : q.owed = q0.owed) (hloc : q.Local (s.ofile p))
    (hforks : q.forks = none) (hfresh : ∀ g ∈ q.fresh, g ∈ q0.fresh) : (s.jump p q).Inv := by
  subst hpc
  refine h.jump (h.not_child hself) hcl hheld howed hloc (fun np i hi => ?_) hfresh
  rw [hforks] at hi
  cases hi

/-- An entry is allocated. -/
theorem alloc (hf : s.filealloc = some f)
    (hcl : q.closing = q0.closing) (hheld : q.held.Perm (f :: q0.held)) (howed : q.owed = q0.owed)
    (hloc : q.Local (s.ofile p)) (hforks : q.forks = none)
    (hfresh : ∀ g ∈ q.fresh, g = f ∨ g ∈ q0.fresh) :
    ((s.setFile f { s.file f with ref := 1 }).jump p q).Inv := by
  subst hpc
  exact h.filealloc hf (h.not_child hself) hcl hheld howed hloc hforks hfresh

end

end

/-- The next step of a call. -/
theorem go (h : s.Inv) {page : Option ℕ} {copied : Bool} (hs : s.go p page copied = some s') :
    s'.Inv := by
  unfold St.go at hs
  generalize hpc : s.pc p = pc at hs
  cases pc with
  | unused | user | embryo =>
    cases hs
  | openAlloc m | pipeAlloc0 =>
    dsimp only at hs
    split at hs
    · next f hf =>
      cases hs
      exact h.alloc hpc (by simp) hf rfl (.refl _) rfl trivial rfl fun g hg =>
        .inl (List.mem_singleton.mp hg)
    · cases hs
      exact h.move hpc (by simp) rfl rfl rfl trivial rfl (forall_mem_nil _)
  | openFd f m =>
    dsimp only at hs
    split at hs
    · next fd hf =>
      cases hs
      exact h.fill hpc (by simp) hf rfl rfl rfl ⟨fd, update_self ..⟩ rfl fun g hg => hg
    · cases hs
      exact h.move hpc (by simp) rfl rfl rfl trivial rfl (forall_mem_nil _)
  | openSet f m =>
    cases hs
    exact h.openSet hpc
  | dupRef f fd =>
    cases hs
    have hl := h.loc p
    rw [hpc] at hl
    obtain ⟨hfd, fd', hne, hfd'⟩ := hl
    have h2 := slots_two hne hfd hfd'
    refine h.filedup ?_ (h.not_child ?_) ?_ (fun g => ?_) trivial (by rintro _ _ ⟨⟩) rfl
    · unfold St.share Pc.share
      rw [hpc]
      simp only [Pc.held, Pc.owed, count_nil, count_cons_self]
      omega
    · rw [hpc]
      simp
    · rw [hpc]
      rfl
    · unfold St.share Pc.share
      rw [hpc]
      simp only [Pc.held, Pc.owed, count_cons, count_nil, beq_iff_eq]
      split <;> push_cast <;> ring
  | fileclose f k =>
    cases hs
    exact h.fileclose hpc
  | pipeclose page w k =>
    cases hs
    exact h.pipeclose hpc
  | pipeAlloc1 rf =>
    dsimp only at hs
    split at hs
    · next f hf =>
      cases hs
      refine h.alloc hpc (by simp) hf rfl (.swap ..) rfl trivial rfl fun g hg => ?_
      rcases List.mem_cons.mp hg with hg | hg
      · exact .inr (List.mem_singleton.mpr hg)
      · exact .inl (List.mem_singleton.mp hg)
    · cases hs
      exact h.move hpc (by simp) rfl rfl rfl trivial rfl (forall_mem_nil _)
  | pipePage rf wf =>
    cases page with
    | some page =>
      obtain ⟨hn, hs⟩ := Option.ite_none_right_eq_some.mp hs
      cases hs
      exact h.newPipe hpc (Option.isNone_iff_eq_none.mp hn)
    | none =>
      cases hs
      exact h.move hpc (by simp) rfl rfl rfl trivial rfl (forall_mem_nil _)
  | pipeFd0 rf wf =>
    dsimp only at hs
    split at hs
    · next fd hf =>
      cases hs
      exact h.fill hpc (by simp) hf rfl rfl rfl (update_self ..) rfl (forall_mem_nil _)
    · cases hs
      exact h.move hpc (by simp) rfl rfl rfl trivial rfl (forall_mem_nil _)
  | pipeFd1 rf wf fd0 =>
    have hl := h.loc p
    rw [hpc] at hl
    dsimp only at hs
    split at hs
    · next fd hf =>
      cases hs
      have hne : fd0 ≠ fd := by
        rintro rfl
        have hl : s.ofile p fd0 = some rf := hl
        rw [fdalloc_none hf] at hl
        cases hl
      exact h.fill hpc (by simp) hf rfl rfl rfl
        ⟨hne, (update_of_ne hne ..).trans hl, update_self ..⟩ rfl (forall_mem_nil _)
    · cases hs
      refine h.setFd hpc (by simp) rfl (fun g => ?_) trivial rfl (forall_mem_nil _)
      unfold Pc.share
      rw [slots_clear hl]
      simp only [Pc.held, Pc.owed, count_cons, count_nil, beq_iff_eq]
      push_cast
      ring
  | pipeCopy rf wf fd0 fd1 =>
    have hl := h.loc p
    rw [hpc] at hl
    obtain ⟨hne, h0, h1⟩ := hl
    dsimp only at hs
    cases copied with
    | true =>
      cases hs
      exact h.move hpc (by simp) rfl rfl rfl trivial rfl (forall_mem_nil _)
    | false =>
      cases hs
      have hself := h.not_child (p := p) (by rw [hpc]; simp)
      have hof : ((s.setFd p fd0 none).setFd p fd1 none).ofile =
          update s.ofile p (update (update (s.ofile p) fd0 none) fd1 none) := by
        unfold St.setFd
        dsimp only
        rw [update_self, update_idem]
      refine h.own rfl rfl hof rfl h.quiet hself ?_ (fun g => ?_) trivial (by rintro _ _ ⟨⟩)
        (forall_mem_nil _)
      · rw [hpc]
        rfl
      · unfold St.share Pc.share
        rw [slots_clear ((update_of_ne hne.symm ..).trans h1), slots_clear h0, hpc]
        simp only [Pc.held, Pc.owed, count_cons, count_nil, beq_iff_eq]
        push_cast
        ring
  | forkDup np i =>
    obtain ⟨hnp, hnone⟩ := h.child p np i (by rw [hpc]; rfl)
    have hne : np ≠ p := by
      rintro rfl
      rw [hpc] at hnp
      cases hnp
    have hself := h.not_child (p := p) (by rw [hpc]; simp)
    dsimp only at hs
    split at hs
    · split at hs
      · next f hfd =>
        cases hs
        have h1 := slots_pos hfd
        refine h.filedup ?_ hself ?_ (fun g => ?_) trivial (fun np' i' hi' => ?_) rfl
        · unfold St.share Pc.share
          rw [hpc]
          simp only [Pc.held, Pc.owed, count_nil]
          omega
        · rw [hpc]
          rfl
        · unfold St.share Pc.share
          rw [hpc]
          simp only [Pc.held, Pc.owed, count_cons, count_nil, beq_iff_eq]
          split <;> push_cast <;> ring
        · cases hi'
          exact ⟨hne, hnp, hnone⟩
      · cases hs
        refine h.jump hself ?_ ?_ ?_ trivial (fun np' i' hi' => ?_) (forall_mem_nil _)
        · rw [hpc]
          rfl
        · rw [hpc]
          rfl
        · rw [hpc]
          rfl
        · cases hi'
          exact ⟨hne, hnp, fun j hj => hnone j (by omega)⟩
    · cases hs
      exact h.forkEnd hpc
  | forkSet np fd f =>
    cases hs
    exact h.forkSet hpc
  | exitScan i =>
    have hl := h.loc p
    rw [hpc] at hl
    dsimp only at hs
    split at hs
    · next hi =>
      split at hs
      · next f hfd =>
        cases hs
        exact h.move hpc (by simp) rfl rfl rfl ⟨rfl, hfd, fun j hj => hl j hj⟩ rfl
          (forall_mem_nil _)
      · next hfd =>
        cases hs
        refine h.move hpc (by simp) rfl rfl rfl (fun j hj => ?_) rfl (forall_mem_nil _)
        by_cases hji : j < i
        · exact hl j hji
        · have hji' : (j : ℕ) = i := by omega
          have he : j = ⟨i, hi⟩ := Fin.ext hji'
          rw [he, hfd]
    · next hi =>
      cases hs
      exact h.move hpc (by simp) rfl rfl rfl
        (fun j => hl j (Nat.lt_of_lt_of_le j.isLt (Nat.not_lt.mp hi))) rfl (forall_mem_nil _)
  | exitClear fd f =>
    have hl := h.loc p
    rw [hpc] at hl
    cases hs
    refine h.setFd hpc (by simp) rfl (fun g => ?_) (fun j hj => ?_) rfl (forall_mem_nil _)
    · unfold Pc.share
      rw [slots_clear hl.1]
      simp only [Pc.held, Pc.owed, count_cons, count_nil, beq_iff_eq]
      split <;> push_cast <;> ring
    · by_cases hjf : j = fd
      · rw [hjf, update_self]
      · rw [update_of_ne hjf]
        refine hl.2 j ?_
        have : (j : ℕ) ≠ fd := fun h' => hjf (Fin.ext h')
        exact Fin.lt_def.mpr (by omega)

/-- A call begins. -/
theorem call (h : s.Inv) {e : Ev T} (hpc : s.pc p = .user) (hs : s.call p e = some s') :
    s'.Inv := by
  unfold St.call at hs
  cases e with
  | sysOpen m =>
    cases m with
    | none =>
      cases hs
      exact h
    | some m =>
      cases hs
      exact h.move hpc (by simp) rfl rfl rfl trivial rfl (forall_mem_nil _)
  | sysDup fd =>
    dsimp only at hs
    split at hs
    · cases hs
      exact h
    · next fd0 f ha =>
      split at hs
      · cases hs
        exact h
      · next fd hf =>
        cases hs
        have hne : fd0 ≠ fd := by
          rintro rfl
          have := argfd_some ha
          rw [fdalloc_none hf] at this
          cases this
        refine h.setFd hpc (by simp) rfl (fun g => ?_)
          ⟨update_self .., fd0, hne, (update_of_ne hne ..).trans (argfd_some ha)⟩ rfl
            (forall_mem_nil _)
        unfold Pc.share
        rw [slots_fill (fdalloc_none hf)]
        simp only [Pc.held, Pc.owed, count_cons, count_nil, beq_iff_eq]
        split <;> push_cast <;> ring
  | sysClose fd =>
    dsimp only at hs
    split at hs
    · cases hs
      exact h
    · next fd0 f ha =>
      cases hs
      refine h.setFd hpc (by simp) rfl (fun g => ?_) trivial rfl (forall_mem_nil _)
      unfold Pc.share
      rw [slots_clear (argfd_some ha)]
      simp only [Pc.held, Pc.owed, count_cons, count_nil, beq_iff_eq]
      push_cast
      ring
  | sysPipe =>
    cases hs
    exact h.move hpc (by simp) rfl rfl rfl trivial rfl (forall_mem_nil _)
  | kfork np =>
    cases np with
    | none =>
      cases hs
      exact h
    | some np =>
      dsimp only at hs
      cases hnp : s.pc np with
      | unused =>
        rw [hnp] at hs
        cases hs
        exact h.forkBegin hpc hnp
      | _ =>
        rw [hnp] at hs
        cases hs
  | kexit =>
    cases hs
    exact h.move hpc (by simp) rfl rfl rfl (fun j hj => absurd hj (Nat.not_lt_zero _)) rfl
      (forall_mem_nil _)
  | go => cases hs

theorem act (h : s.Inv) {l : T × Ev T} (hs : s.act l = some s') : s'.Inv := by
  unfold St.act at hs
  rw [h.quiet] at hs
  cases he : l.2 with
  | go page copied =>
    rw [he] at hs
    exact h.go hs
  | _ =>
    rw [he] at hs
    cases hpc : s.pc l.1 with
    | user =>
      rw [hpc] at hs
      exact h.call hpc hs
    | _ =>
      rw [hpc] at hs
      cases hs

end St.Inv

/-! ## Runs -/

variable [Fintype T] [DecidableEq T]

theorem boot_inv (u : T) : (boot u).Inv := by
  have hpc : ∀ p, ((boot u).pc p).held = [] ∧ ((boot u).pc p).owed = [] ∧
    ((boot u).pc p).fresh = [] ∧
      ((boot u).pc p).forks = none ∧ ((boot u).pc p).closing = none ∧ ((boot u).pc p).Local fun _ =>
        none := by
    intro p
    by_cases hp : p = u
    · have h : (boot u).pc p = .user := if_pos hp
      rw [h]
      exact ⟨rfl, rfl, rfl, rfl, rfl, trivial⟩
    · have h : (boot u).pc p = .unused := if_neg hp
      rw [h]
      exact ⟨rfl, rfl, rfl, rfl, rfl, fun _ => rfl⟩
  refine ⟨rfl, fun f => ?_, fun _ _ => rfl, fun p => (hpc p).2.2.2.2.2, fun p np i hi => ?_,
    fun p f hf => ?_, ?_, nofun⟩
  · refine (Finset.sum_eq_zero fun p _ => ?_).symm
    have h0 : slots ((boot u).ofile p) f = 0 := slots_empty fun _ => rfl
    unfold St.share Pc.share
    rw [(hpc p).1, (hpc p).2.1, h0]
    rfl
  · rw [(hpc p).2.2.2.1] at hi
    cases hi
  · rw [(hpc p).2.2.1] at hf
    cases hf
  · have hnone : ∀ a, (boot u).claim a = none := by
      intro a
      cases a with
      | inl f => rfl
      | inr p => exact (hpc p).2.2.2.2.1
    refine ⟨fun a b e ha => ?_, fun e => ⟨fun ⟨x, hx, _⟩ => (nomatch hx), fun ⟨a, ha⟩ => ?_⟩⟩
    all_goals
      rw [hnone] at ha
      cases ha

/-- The process has dropped the reference of a descriptor in `kexit`, and is about to clear it. -/
def Pc.Clears (q : Pc T) (fd : Fd) (f : Ent) : Prop :=
  q = .exitClear fd f ∨ ∃ page w, q = .pipeclose page w (.clear fd f)

omit [DecidableEq T] in
/-- A descriptor that is not about to be cleared refers to an entry that is in use. -/
theorem St.Inv.ref_pos {s : St T} (h : s.Inv) {p : T} {fd : Fd} {f : Ent}
    (hfd : s.ofile p fd = some f)
    (hq : ¬ (s.pc p).Clears fd f) : 0 < (s.file f).ref := by
  have hle := h.share_le p f
  have hl := h.loc p
  have h1 := slots_pos hfd
  have hsh : 1 ≤ s.share p f := by
    unfold St.share Pc.share
    -- the descriptor that is owed is another one
    have howe : ∀ fd' f', s.ofile p fd' = some f' → (f' = f → fd' ≠ fd) → (s.pc p).owed = [f'] →
        (s.pc p).owed.count f + 1 ≤ slots (s.ofile p) f := by
      intro fd' f' hfd' hne ho
      rw [ho, count_singleton]
      split
      · rename_i he
        obtain rfl : f' = f := by simpa using he
        exact slots_two (hne rfl) hfd hfd'
      · omega
    have hcount : (s.pc p).owed.count f + 1 ≤ slots (s.ofile p) f := by
      cases hpc : s.pc p with
      | dupRef f' fd' =>
        rw [hpc] at hl
        obtain ⟨ha, fd'', hne, hb⟩ := hl
        rw [Pc.owed, count_singleton]
        split
        · rename_i he
          obtain rfl : f' = f := by simpa using he
          exact slots_two hne ha hb
        · omega
      | exitClear fd' f' =>
        rw [hpc] at hl hq howe
        refine howe fd' f' hl.1 ?_ rfl
        rintro rfl rfl
        exact hq (.inl rfl)
      | pipeclose page w k =>
        cases k with
        | close fs =>
          show 0 + 1 ≤ _
          omega
        | clear fd' f' =>
          rw [hpc] at hl hq howe
          refine howe fd' f' hl.1 ?_ rfl
          rintro rfl rfl
          exact hq (.inr ⟨page, w, rfl⟩)
      | _ =>
        show 0 + 1 ≤ _
        omega
    omega
  omega

/-- **The counts of open files are exact**, in every run of `open`, `dup`, `close`, `pipe`, `fork`
and `exit`, with all their failures, by any number of processes. A count is the number of
descriptors with the references that calls in progress hold, less those that `dup` has still to take
and `exit` has dropped before it clears the descriptor. An entry that is not in use is `FD_NONE`. An
end of a pipe is open as long as there is an entry for it or somebody is about to close it, and its
page is kept as long as an end is open. There is no panic, and no pipe is used after its page is
freed. A descriptor, unless `exit` is about to clear it, refers to an entry in use, so that no such
entry is recycled. -/
theorem open_file_counts_exact {u : T} {tr : List (T × Ev T)} {s : St T}
    (hrun : Run (Fires St.act) (boot u) tr s) :
    (∀ f, (s.file f).ref + ∑ p, (s.pc p).owed.count f = ∑ p, slots (s.ofile p) f +
      ∑ p, (s.pc p).held.count f) ∧
    (∀ f, (s.file f).ref = 0 → (s.file f).type = .none) ∧
    (∀ page w, OpenEnd s.pipe (page, w) ↔
      (∃ f, (s.file f).type = .pipe ∧ (s.file f).pipe = page ∧ (s.file f).writable = w) ∨
        ∃ p k, s.pc p = .pipeclose page w k) ∧
    (∀ page, (s.pipe page).isSome ↔ ∃ w, OpenEnd s.pipe (page, w)) ∧
    s.panicked = none ∧
    ∀ p fd f, s.ofile p fd = some f → ¬ (s.pc p).Clears fd f → 0 < (s.file f).ref ∧
    s.filealloc ≠ some f := by
  have h : s.Inv := hrun.inv_state (I := fun s : St T => s.Inv) (boot_inv u) fun _ _ _ h hs =>
    St.Inv.act h hs
  refine ⟨fun f => ?_, h.typed, fun page w => ?_, fun page =>
    ⟨fun hp => ?_, fun ⟨w, x, hx, _⟩ => ?_⟩, h.quiet,
    fun p fd f hfd hq => ?_⟩
  · have hr := h.refs f
    simp only [St.share, Pc.share, Finset.sum_sub_distrib, Finset.sum_add_distrib] at hr
    push_cast [← Nat.cast_sum] at hr
    omega
  · rw [h.ends.claimed.iff]
    constructor
    · rintro ⟨f | p, ha⟩
      · have ha : (if (s.file f).type = .pipe then some ((s.file f).pipe, (s.file f).writable) else
          none) =
          some (page, w) := ha
        obtain ⟨ht, he⟩ := Option.ite_none_right_eq_some.mp ha
        cases he
        exact .inl ⟨f, ht, rfl, rfl⟩
      · have ha : (s.pc p).closing = some (page, w) := ha
        unfold Pc.closing at ha
        split at ha
        · rename_i hpc
          cases ha
          exact .inr ⟨p, _, hpc⟩
        · cases ha
    · rintro (⟨f, ht, rfl, rfl⟩ | ⟨p, k, hpc⟩)
      · exact ⟨.inl f, if_pos ht⟩
      · refine ⟨.inr p, ?_⟩
        show (s.pc p).closing = _
        rw [hpc]
        rfl
  · obtain ⟨x, hx⟩ := Option.isSome_iff_exists.mp hp
    rcases h.ends.live page x hx with hr | hw
    · exact ⟨false, x, hx, hr⟩
    · exact ⟨true, x, hx, hw⟩
  · have hx : s.pipe page = some x := hx
    rw [hx]
    rfl
  · have hpos := h.ref_pos hfd hq
    refine ⟨hpos, fun hf => ?_⟩
    rw [St.Inv.ref_of_filealloc hf] at hpos
    cases hpos

/-- The steps of process `p` in a call, when nothing fails. -/
def steps (p : Bool) (n : ℕ) : List (Bool × Ev (Bool)) := List.replicate n (p, .go (some 7) true)

/-- A pipe is made and its writing end closed; a fork copies the other descriptor. -/
def pipeRun : List (Bool × Ev (Bool)) :=
  (false, .sysPipe) :: steps false 6 ++ (false, .sysClose 1) :: steps false 2 ++
    (false, .kfork (some true)) :: steps false 18

theorem open_file_counts_exact_pipe : ∃ s, Run (Fires St.act) (boot false) pipeRun s ∧
    (s.file 0).ref + ∑ p, (s.pc p).owed.count 0 = ∑ p, slots
      (s.ofile p) 0 + ∑ p, (s.pc p).held.count 0 ∧
    (s.file 0).ref = 2 ∧ OpenEnd s.pipe (7, false) := by
  obtain ⟨s, hs, hP⟩ := exec_any St.act (boot false) pipeRun
    (fun s => decide ((s.file 0).ref = 2) && (s.pipe 7).any fun x => x.isOpen false)
      (by decide +kernel)
  obtain ⟨h2, h7⟩ := Bool.and_eq_true_iff.mp hP
  obtain ⟨x, hx, hopen⟩ := (Option.any_eq_true ..).mp h7
  exact ⟨s, run_of_exec hs, (open_file_counts_exact (run_of_exec hs)).1 0, of_decide_eq_true h2, x,
    hx, hopen⟩

/-- A child is forked. The parent opens a file and exits; before it clears the descriptor, the child
opens a file too. -/
def staleRun : List (Bool × Ev (Bool)) :=
  (false, .kfork (some true)) :: steps false 17 ++
    (false, .sysOpen (some ⟨false, true, false⟩)) :: steps false 3 ++
      (false, .kexit) :: steps false 2 ++
    (true, .sysOpen (some ⟨false, true, false⟩)) :: steps true 3

theorem exit_leaves_stale_descriptor : ∃ s, Run (Fires St.act) (boot false) staleRun s ∧
    s.ofile false 0 = some 0 ∧ s.ofile true 0 = some 0 ∧ (s.file 0).ref = 1 ∧
    ∀ held, (s.file 0).ref ≠ ∑ p, slots (s.ofile p) 0 + held := by
  obtain ⟨s, hs, hP⟩ := exec_any St.act (boot false) staleRun
    (fun s => decide (s.ofile false 0 = some 0 ∧ s.ofile true 0 = some 0 ∧ (s.file 0).ref = 1 ∧
      ∑ p, slots (s.ofile p) 0 = 2)) (by decide +kernel)
  obtain ⟨h0, h1, h2, h3⟩ := of_decide_eq_true hP
  refine ⟨s, run_of_exec hs, h0, h1, h2, fun held => ?_⟩
  omega

end Xv6.Ftable
