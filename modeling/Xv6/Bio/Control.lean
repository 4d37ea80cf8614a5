/-
  Who may use the log: `log.lock`, the operations, the commit.

  `Control` is the part of the invariant that does not look at the buffers. While a commit runs
  there is no operation, one thread goes through `commit`, and the blocks that are still pinned are
  those of the log that `install_trans` has not reached.
-/
import Xv6.Lib.Tally
import Xv6.Bio.Edges

namespace Xv6.Bio

open Lib Function
open Log (Block absorb headerBlock absorb_eq)

variable {T : Type} {n : ℕ}

/-! ## The state after a step -/

section

variable [DecidableEq T]

/-- The operation, and the thread at its new position. -/
def Op.next (s : St T n) (t : T) (o : Op n) (pc : Pc n) : St T n :=
  { o.apply s t with pc := update (o.apply s t).pc t pc }

variable {start : ℕ} {s : St T n} {t u : T} {o : Op n} {q : Pc n} {x : Fin n}

theorem apply_pc : (o.apply s t).pc = s.pc := by
  cases o with
  | drop b =>
    unfold Op.apply
    dsimp only
    split <;> rfl
  | _ => rfl

theorem next_pc_self : (o.next s t q).pc t = q := update_self ..

theorem next_pc_ne (hu : u ≠ t) : (o.next s t q).pc u = s.pc u := by
  refine (update_of_ne hu ..).trans ?_
  rw [apply_pc]

/-- Operations that leave `log` and the operations as they are. -/
def Op.Quiet : Op n → Prop
  | .absorb _ | .logAcquire | .pin _ | .bunpin _ | .beginOp | .endOp _ | .clear
  | .commitDone => False
  | _ => True

structure SameLog (s s' : St T n) : Prop where
  logLock : s'.logLock = s.logLock
  lh : s'.lh = s.lh
  outstanding : s'.outstanding = s.outstanding
  committing : s'.committing = s.committing
  ops : s'.ops = s.ops
  pins : s'.pins = s.pins

theorem next_log (h : o.Quiet) : SameLog s (o.next s t q) := by
  cases o with
  | drop b =>
    unfold Op.next Op.apply
    dsimp only
    split <;> exact ⟨rfl, rfl, rfl, rfl, rfl, rfl⟩
  | _ => first | exact h.elim | exact ⟨rfl, rfl, rfl, rfl, rfl, rfl⟩

end

/-! ## The invariant -/

structure Control [Fintype T] (s : St T n) : Prop where
  pinning : ∀ u b, (s.pc u).pinning = some b →
    s.logLock = some u ∧ s.lh.length < logBlocks ∧ s.committing = false
  commits : ∀ u, (s.pc u).commits = true → s.committing = true
  one : ∀ u v, (s.pc u).commits = true → (s.pc v).commits = true → u = v
  idle : s.committing = true → s.outstanding = 0
  outs : s.outstanding = ∑ u, if (s.ops u).isSome then 1 else 0
  len : s.lh.length ≤ logBlocks
  pins : s.committing = false → s.pins = s.lh
  unpinned : ∀ u, (s.pc u).commits = true → s.pins = s.lh.drop (s.pc u).unpinned
  round : ∀ u i, (s.pc u).round = some i → i < s.lh.length

theorem boot_control [Fintype T] (d : ℕ → Block) : Control (boot T n d) where
  pinning := fun u b h => nomatch h
  commits := fun u h => nomatch h
  one := fun u v h => nomatch h
  idle := nofun
  outs := by simp [boot]
  len := Nat.zero_le _
  pins := fun _ => rfl
  unpinned := fun u h => nomatch h
  round := fun u i h => nomatch h

theorem Pc.commits_of_round {pc : Pc n} {i : ℕ} (h : pc.round = some i) : pc.commits = true := by
  induction pc with
  | out b k ih => exact ih h
  | get b c | got b c => cases c <;> first | rfl | cases h
  | _ => first | rfl | cases h

variable {b : Fin n}

theorem Pc.commits_of_pinning {pc : Pc n} (h : pc.pinning = some b) : pc.commits = false := by
  induction pc with
  | out b k ih => exact ih h
  | _ => first | rfl | cases h

section

variable [Fintype T] {start : ℕ} {s s' : St T n} {t u : T} {o : Op n} {q : Pc n}

/-- A thread in `commit` is the only one, and no operation is open. -/
theorem Control.other (h : Control s) (hc : (s.pc t).commits = true) (hu : u ≠ t) :
    (s.pc u).commits = false ∧ ∀ b, (s.pc u).pinning ≠ some b := by
  refine ⟨?_, fun b hb => ?_⟩
  · cases hcu : (s.pc u).commits with
    | false => rfl
    | true => exact absurd (h.one u t hcu hc) hu
  · have h1 := (h.pinning u b hb).2.2
    rw [h.commits t hc] at h1
    cases h1

/-- Where no commit runs, no thread is in `commit`. -/
theorem Control.not_commits (h : Control s) (hc : s.committing = false) (u : T) :
    (s.pc u).commits = false := by
  cases hcu : (s.pc u).commits with
  | false => rfl
  | true =>
    rw [h.commits u hcu] at hc
    cases hc

/-- While a commit runs no operation is open. -/
theorem Control.no_ops (h : Control s) (hc : s.committing = true) (u : T) : s.ops u = none := by
  by_contra hu
  have hle := Finset.single_le_sum (f := fun u => if (s.ops u).isSome then (1 : ℤ) else 0)
    (fun u _ => by split <;> decide) (Finset.mem_univ u)
  have hout := h.outs
  have h0 := h.idle hc
  simp only [Option.isSome_iff_ne_none.mpr hu, if_true] at hle
  omega

theorem Control.committing_of_outstanding (h : Control s) (ho : 1 ≤ s.outstanding) :
    s.committing = false := by
  cases hc : s.committing with
  | false => rfl
  | true =>
    have := h.idle hc
    omega

variable [DecidableEq T]

theorem Control.next_quiet (h : Control s) (he : Edge start s t (s.pc t) o q) (hop : o.Quiet) :
    Control (o.next s t q) := by
  obtain ⟨h1, h2, h3, h4, h5, h6⟩ := next_log (s := s) (t := t) (q := q) hop
  have hcommits : q.commits = (s.pc t).commits :=
    he.commits (by rintro rfl; exact hop) (by rintro rfl; exact hop)
  have hc : ∀ u, ((o.next s t q).pc u).commits = (s.pc u).commits := by
    intro u
    by_cases hu : u = t
    · rw [hu, next_pc_self, hcommits]
    · rw [next_pc_ne hu]
  refine ⟨fun u b hb => ?_, fun u hu => ?_, fun u v hu hv => ?_, ?_, ?_, ?_, ?_, fun u hu => ?_,
    fun u i hi => ?_⟩
  · rw [h1, h2, h4]
    by_cases hu : u = t
    · rw [hu, next_pc_self] at hb
      rw [hu]
      rcases he.pinning hb with ⟨hb, _⟩ | ⟨rfl, _⟩
      · exact h.pinning t b hb
      · exact hop.elim
    · rw [next_pc_ne hu] at hb
      exact h.pinning u b hb
  · rw [hc] at hu
    rw [h4]
    exact h.commits u hu
  · rw [hc] at hu hv
    exact h.one u v hu hv
  · rw [h3, h4]
    exact h.idle
  · rw [h3, h5]
    exact h.outs
  · rw [h2]
    exact h.len
  · rw [h2, h4, h6]
    exact h.pins
  · rw [h2, h6]
    rw [hc] at hu
    by_cases hut : u = t
    · rw [hut, next_pc_self, he.unpinned (by rintro rfl; exact hop) (by rintro b rfl; exact hop)]
      rw [hut] at hu
      exact h.unpinned t hu
    · rw [next_pc_ne hut]
      exact h.unpinned u hu
  · rw [h2]
    by_cases hut : u = t
    · rw [hut, next_pc_self] at hi
      exact (he.round hi).elim (h.round t i) fun h => h
    · rw [next_pc_ne hut] at hi
      exact h.round u i hi

/-- The number of operations when one begins or ends. -/
theorem outs_update (ops : T → Option (List ℕ)) (v : Option (List ℕ)) :
    (∑ u, if (update ops t v u).isSome then (1 : ℤ) else 0) + (if (ops t).isSome then 1 else 0) =
      (∑ u, if (ops u).isSome then (1 : ℤ) else 0) + if v.isSome then 1 else 0 := by
  have h := sum_change (t := t) (f := fun u => if (ops u).isSome then (1 : ℤ) else 0)
    (g := fun u => if (update ops t v u).isSome then (1 : ℤ) else 0)
    (fun u hu => by rw [update_of_ne hu])
  simpa only [update_self] using h

theorem outs_map (ops : T → Option (List ℕ)) (f : List ℕ → List ℕ) :
    (∑ u, if (update ops t ((ops t).map f) u).isSome then (1 : ℤ) else 0) =
      ∑ u, if (ops u).isSome then (1 : ℤ) else 0 := by
  have h := outs_update (t := t) ops ((ops t).map f)
  rw [Option.isSome_map] at h
  omega

section

variable (h : Control s)

include h

/-- A step of a thread that is not in `commit`, while no commit runs. -/
theorem Control.next_user (hcommit : s.committing = false) (hs' : ∀ u, u ≠ t → s'.pc u = s.pc u)
    (hc' : (s'.pc t).commits = false) (hpin : ∀ u b, (s'.pc u).pinning = some b →
      s'.logLock = some u ∧ s'.lh.length < logBlocks) (hcommit' : s'.committing = false)
    (houts : s'.outstanding = ∑ u, if (s'.ops u).isSome then 1 else 0)
    (hlen : s'.lh.length ≤ logBlocks)
    (hpins : s'.pins = s'.lh) : Control s' := by
  have hnone : ∀ u, (s'.pc u).commits = false := by
    intro u
    by_cases hu : u = t
    · rw [hu]
      exact hc'
    · rw [hs' u hu]
      exact h.not_commits hcommit u
  have hno : ∀ u, (s'.pc u).commits ≠ true := fun u hu => by
    rw [hnone u] at hu
    cases hu
  exact ⟨fun u b hb => ⟨(hpin u b hb).1, (hpin u b hb).2, hcommit'⟩, fun u hu => absurd hu (hno u),
    fun u v hu => absurd hu (hno u), fun hc => absurd hc (by rw [hcommit']; decide), houts, hlen,
    fun _ => hpins, fun u hu => absurd hu (hno u),
    fun u i hi => absurd (Pc.commits_of_round hi) (hno u)⟩

theorem Control.next_absorb (hpc : s.pc t = .free) (ho : 1 ≤ s.outstanding)
    (hm : (s.buf b).blockno ∈ s.lh) : Control ((Op.absorb b).next s t .free) := by
  have hc := h.committing_of_outstanding ho
  have hlh : absorb (s.buf b).blockno s.lh = s.lh := by rw [absorb_eq, if_pos hm]
  have hpcs : ∀ u, ((Op.absorb b).next s t .free).pc u = s.pc u := by
    intro u
    by_cases hu : u = t
    · rw [hu, next_pc_self, hpc]
    · exact next_pc_ne hu
  refine h.next_user (t := t) hc (fun u _ => hpcs u) (by rw [next_pc_self]; rfl)
    (fun u c hu => ?_) hc (h.outs.trans (outs_map s.ops _).symm) ?_ ?_
  · rw [hpcs] at hu
    have hp := h.pinning u c hu
    exact ⟨hp.1, by rw [show ((Op.absorb b).next s t .free).lh = _ from hlh]; exact hp.2.1⟩
  · rw [show ((Op.absorb b).next s t .free).lh = _ from hlh]
    exact h.len
  · rw [show ((Op.absorb b).next s t .free).lh = _ from hlh]
    exact h.pins hc

theorem Control.next_logAcquire (hl : s.logLock = none)
    (hn : s.lh.length < logBlocks) (ho : 1 ≤ s.outstanding) :
    Control (Op.logAcquire.next s t (.logPin b)) := by
  have hc := h.committing_of_outstanding ho
  refine h.next_user (t := t) hc (fun u hu => next_pc_ne hu) (by rw [next_pc_self]; rfl)
    (fun u c hu => ?_) hc h.outs h.len (h.pins hc)
  by_cases hut : u = t
  · rw [hut]
    exact ⟨rfl, hn⟩
  · rw [next_pc_ne hut] at hu
    have hp := (h.pinning u c hu).1
    rw [hl] at hp
    cases hp

theorem Control.next_pin (hpc : s.pc t = .logPin b)
    (hm : (s.buf b).blockno ∉ s.lh) : Control ((Op.pin b).next s t .free) := by
  obtain ⟨hl, hn, hc⟩ := h.pinning t b (by rw [hpc]; rfl)
  have hlh : ((Op.pin b).next s t .free).lh = s.lh ++ [(s.buf b).blockno] := by
    show absorb (update s.buf b _ b).blockno s.lh = _
    rw [update_self, absorb_eq, if_neg hm]
  refine h.next_user (t := t) hc (fun u hu => next_pc_ne hu) (by rw [next_pc_self]; rfl)
    (fun u c hu => ?_) hc (h.outs.trans (outs_map s.ops _).symm) ?_ ?_
  · by_cases hut : u = t
    · rw [hut, next_pc_self] at hu
      cases hu
    · rw [next_pc_ne hut] at hu
      have hp := (h.pinning u c hu).1
      rw [hl] at hp
      exact absurd (Option.some.inj hp).symm hut
  · rw [hlh, List.length_append]
    exact hn
  · rw [hlh]
    exact congrArg (· ++ _) (h.pins hc)

theorem Control.next_beginOp (hpc : s.pc t = .free) (hops : s.ops t = none)
    (hc : s.committing = false) : Control (Op.beginOp.next s t .free) := by
  have hpcs : ∀ u, (Op.beginOp.next s t .free).pc u = s.pc u := by
    intro u
    by_cases hu : u = t
    · rw [hu, next_pc_self, hpc]
    · exact next_pc_ne hu
  refine h.next_user (t := t) hc (fun u _ => hpcs u) (by rw [next_pc_self]; rfl)
    (fun u c hu => ?_) hc ?_ h.len (h.pins hc)
  · rw [hpcs] at hu
    exact ⟨(h.pinning u c hu).1, (h.pinning u c hu).2.1⟩
  · have := outs_update (t := t) s.ops (some [])
    have hout := h.outs
    rw [hops] at this
    simp only [Option.isSome_none, Option.isSome_some, if_true, Bool.false_eq_true,
      if_false] at this
    show s.outstanding + 1 = ∑ u, if (update s.ops t _ u).isSome then (1 : ℤ) else 0
    omega

theorem Control.outs_end (hops : s.ops t ≠ none) :
    s.outstanding - 1 = ∑ u, if (update s.ops t none u).isSome then (1 : ℤ) else 0 := by
  have := outs_update (t := t) s.ops none
  have hout := h.outs
  rw [Option.isSome_iff_ne_none.mpr hops] at this
  simp only [Option.isSome_none, if_true, Bool.false_eq_true, if_false] at this
  omega

theorem Control.next_endOp (hpc : s.pc t = .free) (hops : s.ops t ≠ none)
    (hc : s.committing = false) : Control ((Op.endOp false).next s t .free) := by
  have hpcs : ∀ u, ((Op.endOp false).next s t .free).pc u = s.pc u := by
    intro u
    by_cases hu : u = t
    · rw [hu, next_pc_self, hpc]
    · exact next_pc_ne hu
  refine h.next_user (t := t) hc (fun u _ => hpcs u) (by rw [next_pc_self]; rfl)
    (fun u c hu => ?_) hc (h.outs_end hops) h.len (h.pins hc)
  rw [hpcs] at hu
  exact ⟨(h.pinning u c hu).1, (h.pinning u c hu).2.1⟩

theorem Control.next_commit (hops : s.ops t ≠ none) (hl : s.logLock = none)
    (hc : s.committing = false) (ho : s.outstanding = 1) :
    Control ((Op.endOp true).next s t (Bio.commit s)) := by
  obtain ⟨h1, h2, h3, _⟩ := commit_facts s
  have hno : ∀ u, u ≠ t → ((((Op.endOp true).next s t (Bio.commit s)).pc u).commits = false) :=
    fun u hu => by
    rw [next_pc_ne hu]
    exact h.not_commits hc u
  have honly : ∀ u, ((((Op.endOp true).next s t (Bio.commit s)).pc u).commits = true) → u = t := by
    intro u hu
    by_contra hut
    rw [hno u hut] at hu
    cases hu
  refine ⟨fun u b hb => ?_, fun _ _ => rfl, fun u v hu hv => (honly u hu).trans (honly v hv).symm,
    fun _ => ?_,
    h.outs_end hops, h.len, nofun, fun u hu => ?_, fun u i hi => ?_⟩
  · by_cases hut : u = t
    · rw [hut, next_pc_self] at hb
      unfold Bio.commit at hb
      split at hb <;> cases hb
    · rw [next_pc_ne hut] at hb
      have := (h.pinning u b hb).1
      rw [hl] at this
      cases this
  · show s.outstanding - 1 = 0
    omega
  · rw [honly u hu, next_pc_self, h3]
    exact h.pins hc
  · by_cases hut : u = t
    · rw [hut, next_pc_self, h2] at hi
      cases hi
    · exact absurd (Pc.commits_of_round hi) (by rw [hno u hut]; decide)

/-- A step of the thread in `commit`. -/
theorem Control.next_committer (hpc : (s.pc t).commits = true)
    (hs' : ∀ u, u ≠ t → s'.pc u = s.pc u) (hc' : (s'.pc t).commits = true)
    (hcommit : s'.committing = s.committing) (hout : s'.outstanding = s.outstanding)
    (hops : s'.ops = s.ops)
    (hlen : s'.lh.length ≤ logBlocks) (hpins : s'.pins = s'.lh.drop (s'.pc t).unpinned)
    (hround : ∀ i, (s'.pc t).round = some i → i < s'.lh.length) : Control s' := by
  have honly : ∀ u, (s'.pc u).commits = true → u = t := by
    intro u hu
    by_contra hut
    rw [hs' u hut, (h.other hpc hut).1] at hu
    cases hu
  have hrun : s'.committing = true := hcommit.trans (h.commits t hpc)
  refine ⟨fun u b hb => ?_, fun u _ => hrun, fun u v hu hv => (honly u hu).trans (honly v hv).symm,
    fun _ => hout.trans (h.idle (h.commits t hpc)), ?_, hlen, fun hf => ?_, fun u hu => ?_,
    fun u i hi => ?_⟩
  · by_cases hut : u = t
    · rw [hut] at hb
      rw [Pc.commits_of_pinning hb] at hc'
      cases hc'
    · rw [hs' u hut] at hb
      exact absurd hb ((h.other hpc hut).2 b)
  · rw [hout, hops]
    exact h.outs
  · rw [hrun] at hf
    cases hf
  · rw [honly u hu]
    exact hpins
  · rw [honly u (Pc.commits_of_round hi)] at hi
    exact hround i hi

theorem Control.next_bunpin {tail : ℕ} {lbuf dbuf : Fin n}
    (hpc : s.pc t = .insWritten tail lbuf dbuf) (hd : (s.buf dbuf).blockno = s.lh.getD tail 0) :
    Control ((Op.bunpin dbuf).next s t (.insUnpinned tail lbuf dbuf)) := by
  have hpins := h.unpinned t (by rw [hpc]; rfl)
  have hround := h.round t tail (by rw [hpc]; rfl)
  rw [hpc] at hpins
  refine h.next_committer (t := t) (by rw [hpc]; rfl) (fun u hu => next_pc_ne hu)
    (by rw [next_pc_self]; rfl) rfl rfl rfl h.len ?_ (fun i hi => ?_)
  · rw [next_pc_self]
    show s.pins.erase (s.buf dbuf).blockno = s.lh.drop (tail + 1)
    rw [hpins, hd, show (Pc.insWritten tail lbuf dbuf).unpinned = tail from rfl,
      List.drop_eq_getElem_cons hround, List.getD_eq_getElem _ _ hround, List.erase_cons_head]
  · rw [next_pc_self] at hi
    cases hi
    exact hround

theorem Control.next_clear {tail : ℕ} (hpc : s.pc t = .insStart tail)
    (ht : s.lh.length ≤ tail) : Control (Op.clear.next s t (.headStart true)) := by
  have hpins := h.unpinned t (by rw [hpc]; rfl)
  rw [hpc] at hpins
  refine h.next_committer (t := t) (by rw [hpc]; rfl) (fun u hu => next_pc_ne hu)
    (by rw [next_pc_self]; rfl) rfl rfl rfl (Nat.zero_le _) ?_ (fun i hi => ?_)
  · rw [next_pc_self]
    exact hpins.trans (List.drop_eq_nil_of_le ht)
  · rw [next_pc_self] at hi
    cases hi

theorem Control.next_commitDone (hpc : s.pc t = .done) :
    Control (Op.commitDone.next s t .free) := by
  have hpins := h.unpinned t (by rw [hpc]; rfl)
  rw [hpc] at hpins
  have hother : ∀ u, u ≠ t → (s.pc u).commits = false ∧ ∀ b, (s.pc u).pinning ≠ some b :=
    fun u hu => h.other (t := t) (by rw [hpc]; rfl) hu
  have hno : ∀ u, ((Op.commitDone.next s t .free).pc u).commits ≠ true := by
    intro u hu
    by_cases hut : u = t
    · rw [hut, next_pc_self] at hu
      cases hu
    · rw [next_pc_ne hut, (hother u hut).1] at hu
      cases hu
  refine ⟨fun u b hb => ?_, fun u hu => absurd hu (hno u), fun u v hu => absurd hu (hno u),
    nofun, h.outs, h.len, fun _ => hpins, fun u hu => absurd hu (hno u),
    fun u i hi => absurd (Pc.commits_of_round hi) (hno u)⟩
  by_cases hut : u = t
  · rw [hut, next_pc_self] at hb
    cases hb
  · rw [next_pc_ne hut] at hb
    exact absurd hb ((hother u hut).2 b)

/-- A step of a thread, given what the buffers say: a block that is to be pinned is not in the log,
and `install_trans` has the buffer of its round. -/
theorem Control.next (he : Edge start s t (s.pc t) o q) (hen : o.Enabled s)
    (hpin : ∀ b, s.pc t = .logPin b → (s.buf b).blockno ∉ s.lh)
    (hins : ∀ tail lbuf dbuf, s.pc t = .insWritten tail lbuf dbuf →
      (s.buf dbuf).blockno = s.lh.getD tail 0) :
    Control (o.next s t q) := by
  have hquiet : o.Quiet → Control (o.next s t q) := h.next_quiet he
  generalize hpc : s.pc t = pc at he
  cases he with
  | absorb b hb ha ho hm => exact h.next_absorb hpc ho hm
  | logAcquire b hb ha hn ho hm => exact h.next_logAcquire hen hn ho
  | pin b => exact h.next_pin hpc (hpin b hpc)
  | bunpin tail lbuf dbuf => exact h.next_bunpin hpc (hins tail lbuf dbuf hpc)
  | beginOp h0 hc hr => exact h.next_beginOp hpc h0 hc
  | endOp h0 hc ho => exact h.next_endOp hpc h0 hc
  | commit h0 hc ho => exact h.next_commit h0 hen hc ho
  | clear tail ht => exact h.next_clear hpc ht
  | done => exact h.next_commitDone hpc
  | _ => exact hquiet trivial

end

end

end Xv6.Bio
