/-
  The invariant of the open files.

  A process contributes to the count of an entry with its descriptors and with what the call that it
  is in holds or owes (`share`); the count is the sum of the shares. What a call relies on between
  its steps is `Pc.Local` for its descriptors, `Pc.fresh` for entries that it has allocated and not
  set up, and `Pc.forks` for the child of a fork. An open end of a pipe is claimed by the entry for
  it or by the process that is about to close it, and by one of them only.
-/
import Xv6.Lib.Tally
import Xv6.Lib.Claims
import Xv6.Ftable.Model

namespace Xv6.Ftable

open Lib Function List

variable {T : Type}

/-! ## Shares -/

/-- What a process contributes to the count of an entry. -/
def Pc.share (o : Fd → Option Ent) (q : Pc T) (f : Ent) : ℤ :=
  slots o f + q.held.count f - q.owed.count f

theorem slots_update (o : Fd → Option Ent) (fd : Fd) (v : Option Ent) (g : Ent) :
    slots (update o fd v) g + (if o fd = some g then 1 else 0) = slots o g + if v = some g then
      1 else 0 := by
  have h := sum_change (t := fd) (f := fun i => if o i = some g then 1 else 0)
    (g := fun i => if update o fd v i = some g then 1 else 0)
    (fun u hu => by rw [update_of_ne hu])
  rwa [update_self] at h

section

variable {o : Fd → Option Ent} {fd : Fd} {f g : Ent} {q : Pc T}

theorem slots_fill (ho : o fd = none) :
    (slots (update o fd (some f)) g : ℤ) = slots o g + if f = g then 1 else 0 := by
  have h := slots_update o fd (some f) g
  rw [ho, if_neg nofun] at h
  by_cases hfg : f = g
  · rw [if_pos (congrArg some hfg)] at h
    rw [if_pos hfg]
    omega
  · rw [if_neg fun h' => hfg (Option.some.inj h')] at h
    rw [if_neg hfg]
    omega

theorem slots_clear (ho : o fd = some f) :
    (slots (update o fd none) g : ℤ) = slots o g - if f = g then 1 else 0 := by
  have h := slots_update o fd none g
  rw [ho, if_neg (nofun : ¬ none = some g)] at h
  by_cases hfg : f = g
  · rw [if_pos (congrArg some hfg)] at h
    rw [if_pos hfg]
    omega
  · rw [if_neg fun h' => hfg (Option.some.inj h')] at h
    rw [if_neg hfg]
    omega

theorem slots_pos (ho : o fd = some f) : 1 ≤ slots o f := by
  have h := le_sum (fun i => if o i = some f then 1 else 0) fd
  rwa [if_pos ho] at h

theorem slots_two {fd' : Fd} (hne : fd' ≠ fd) (ho : o fd = some f) (ho' : o fd' = some f) :
    2 ≤ slots o f := by
  have h := add_le_sum (fun i => if o i = some f then 1 else 0) hne
  rwa [if_pos ho, if_pos ho'] at h

theorem slots_empty (ho : ∀ fd, o fd = none) : slots o f = 0 := by
  refine Finset.sum_eq_zero fun fd _ => ?_
  rw [ho]
  rfl

end

/-! ## Between the steps of a call -/

/-- What a call knows of the descriptors of its process. -/
def Pc.Local (o : Fd → Option Ent) : Pc T → Prop
  | .unused => ∀ fd, o fd = none
  | .openSet f _ => ∃ fd, o fd = some f
  | .dupRef f fd => o fd = some f ∧ ∃ fd', fd' ≠ fd ∧ o fd' = some f
  | .fileclose f (.clear fd f') => f = f' ∧ o fd = some f ∧ ∀ j < fd, o j = none
  | .pipeclose _ _ (.clear fd f) | .exitClear fd f => o fd = some f ∧ ∀ j < fd, o j = none
  | .pipeFd1 rf _ fd0 => o fd0 = some rf
  | .pipeCopy rf wf fd0 fd1 => fd0 ≠ fd1 ∧ o fd0 = some rf ∧ o fd1 = some wf
  | .exitScan i => ∀ j : Fd, j < i → o j = none
  | _ => True

/-- The entries that a call has allocated and not set up. -/
def Pc.fresh : Pc T → List Ent
  | .openFd f _ | .openSet f _ | .pipeAlloc1 f => [f]
  | .pipePage rf wf => [rf, wf]
  | _ => []

/-- The child of a fork, and the first descriptor that has not been copied. -/
def Pc.forks : Pc T → Option (T × ℕ)
  | .forkDup np i => some (np, i)
  | .forkSet np fd _ => some (np, fd)
  | _ => none

/-- The end of a pipe that is about to be closed. -/
def Pc.closing : Pc T → Option (ℕ × Bool)
  | .pipeclose page w _ => some (page, w)
  | _ => none

section

variable {o : Fd → Option Ent} {f g : Ent} {q : Pc T} {k : After}

theorem After.next_closing (k : After) : (k.next : Pc T).closing = none := by
  unfold After.next
  split <;> rfl

theorem After.next_fresh (k : After) : (k.next : Pc T).fresh = [] := by
  unfold After.next
  split <;> rfl

theorem After.next_forks (k : After) : (k.next : Pc T).forks = none := by
  unfold After.next
  split <;> rfl

theorem After.next_held (page : ℕ) (w : Bool) (k : After) :
    (k.next : Pc T).held = (Pc.pipeclose page w k : Pc T).held := by
  unfold After.next
  split <;> rfl

theorem After.next_owed (page : ℕ) (w : Bool) (k : After) :
    (k.next : Pc T).owed = (Pc.pipeclose page w k : Pc T).owed := by
  unfold After.next
  split <;> rfl

theorem After.next_local (page : ℕ) (w : Bool) (h : (Pc.pipeclose page w k : Pc T).Local o) :
    (k.next : Pc T).Local o := by
  unfold After.next
  split
  · exact trivial
  · exact trivial
  · exact h

/-- A call owes a reference only for a descriptor. -/
theorem Pc.owed_le (h : q.Local o) (f : Ent) : q.owed.count f ≤ slots o f := by
  have hone : ∀ x fd, o fd = some x → [x].count f ≤ slots o f := by
    intro x fd hx
    rw [count_singleton]
    split
    · rename_i he
      obtain rfl : x = f := by simpa using he
      exact slots_pos hx
    · exact Nat.zero_le _
  unfold Pc.owed
  split
  · exact hone _ _ h.1
  · exact hone _ _ h.1
  · exact hone _ _ h.1
  · exact Nat.zero_le _

theorem share_nonneg (h : q.Local o) (f : Ent) : 0 ≤ q.share o f := by
  have := Pc.owed_le h f
  unfold Pc.share
  omega

theorem fresh_share (h : q.Local o) (hf : f ∈ q.fresh) : 1 ≤ q.share o f := by
  have hheld : f ∈ q.held → q.owed = [] → 1 ≤ q.share o f := by
    intro hm ho
    have := List.count_pos_iff.mpr hm
    rw [Pc.share, ho, count_nil]
    omega
  cases q with
  | openFd | pipeAlloc1 | pipePage => exact hheld hf rfl
  | openSet f' m =>
    obtain ⟨fd, hfd⟩ := h
    obtain rfl := List.mem_singleton.mp hf
    have := slots_pos hfd
    simp only [Pc.share, Pc.held, Pc.owed, count_nil]
    omega
  | _ => cases hf

end

/-! ## The invariant -/

/-- The end of a pipe that an entry is for. -/
def File.pipeEnd (x : File) : Option (ℕ × Bool) :=
  if x.type = .pipe then some (x.pipe, x.writable) else none

def OpenEnd (pipe : ℕ → Option Pipe) (e : ℕ × Bool) : Prop :=
  ∃ x, pipe e.1 = some x ∧ x.isOpen e.2 = true

namespace St

variable (s : St T)

def share (p : T) (f : Ent) : ℤ := Pc.share (s.ofile p) (s.pc p) f

/-- Who claims which end of a pipe. -/
def claim : Ent ⊕ T → Option (ℕ × Bool) :=
  Sum.elim (fun f => (s.file f).pipeEnd) fun p => (s.pc p).closing

/-- The open ends are claimed, and no page is kept without an open end. -/
structure Ends : Prop where
  claimed : Claimed s.claim (OpenEnd s.pipe)
  live : ∀ page x, s.pipe page = some x → x.readopen = true ∨ x.writeopen = true

structure Inv [Fintype T] : Prop where
  quiet : s.panicked = none
  refs : ∀ f, ((s.file f).ref : ℤ) = ∑ p, s.share p f
  typed : ∀ f, (s.file f).ref = 0 → (s.file f).type = .none
  loc : ∀ p, (s.pc p).Local (s.ofile p)
  child : ∀ p np i, (s.pc p).forks = some (np, i) → s.pc np = .embryo p ∧ ∀ j : Fd, i ≤ j →
    s.ofile np j = none
  fresh : ∀ p, ∀ f ∈ (s.pc p).fresh, (s.file f).ref = 1 ∧ (s.file f).type = .none
  ends : s.Ends

/-- A child that `p` at `q` fills is an embryo of `p`, with no descriptor from the next one on. -/
abbrev Forking (p : T) (q : Pc T) : Prop :=
  ∀ np i, q.forks = some (np, i) → np ≠ p ∧ s.pc np = .embryo p ∧ ∀ j : Fd, i ≤ j →
  s.ofile np j = none

end St

variable [Fintype T] [DecidableEq T] {s s' : St T} {p : T} {f : Ent} {o : Fd → Option Ent}
  {q : Pc T}
  {k : After}

namespace St.Inv

omit [DecidableEq T] in
theorem share_le (h : s.Inv) (p : T) (f : Ent) : s.share p f ≤ (s.file f).ref := by
  rw [h.refs f]
  exact Finset.single_le_sum (fun r _ => share_nonneg (h.loc r) f) (Finset.mem_univ p)

theorem share_add_le (h : s.Inv) {p r : T} (hne : p ≠ r) (f : Ent) :
    s.share p f + s.share r f ≤ (s.file f).ref := by
  have hle := Finset.sum_le_univ_sum_of_nonneg (s := {p, r}) (f := fun r => s.share r f)
    fun r => share_nonneg (h.loc r) f
  rwa [Finset.sum_pair hne, ← h.refs f] at hle

/-- An entry that a process has a share in is fresh for no other process. -/
theorem not_fresh (h : s.Inv) (hp : 1 ≤ s.share p f) {r : T} (hr : r ≠ p) : f ∉ (s.pc r).fresh := by
  intro hf
  have h1 := (h.fresh r f hf).1
  have h2 := fresh_share (h.loc r) hf
  have h3 := h.share_add_le hr f
  change 1 ≤ s.share r f at h2
  omega

omit [DecidableEq T] in
theorem not_child (h : s.Inv) (hpc : ∀ r, s.pc p ≠ .embryo r) (r : T) (i : ℕ) :
    (s.pc r).forks ≠ some (p, i) :=
  fun hf => hpc r (h.child r p i hf).1

/-- A step of process `p`, which changes its descriptors and where it is, and entries of the
    table. -/
theorem step (h : s.Inv) (hof : s'.ofile = update s.ofile p o) (hpc : s'.pc = update s.pc p q)
    (hnp : s'.panicked = none) (hself : ∀ r i, (s.pc r).forks ≠ some (p, i))
    (hcount : ∀ g, ((s'.file g).ref : ℤ) - (s.file g).ref = Pc.share o q g - s.share p g)
    (hty : ∀ g, (s'.file g).ref = 0 → (s'.file g).type = .none) (hloc : q.Local o)
    (hforks : s.Forking p q)
    (hfresh : ∀ g ∈ q.fresh, (s'.file g).ref = 1 ∧ (s'.file g).type = .none)
    (hother : ∀ r, r ≠ p → ∀ g ∈ (s.pc r).fresh, (s'.file g).ref = 1 ∧ (s'.file g).type = .none)
    (hends : s'.Ends) : s'.Inv := by
  have hself' : s'.ofile p = o ∧ s'.pc p = q := by
    rw [hof, hpc, update_self, update_self]
    exact ⟨rfl, rfl⟩
  have hne : ∀ r, r ≠ p → s'.ofile r = s.ofile r ∧ s'.pc r = s.pc r := by
    intro r hr
    rw [hof, hpc, update_of_ne hr, update_of_ne hr]
    exact ⟨rfl, rfl⟩
  refine ⟨hnp, fun g => ?_, hty, fun r => ?_, fun r np i hf => ?_, fun r g hg => ?_, hends⟩
  · have hsum := sum_change (t := p) (f := fun r => s.share r g) (g := fun r => s'.share r g)
      fun r hr => by
      unfold St.share
      rw [(hne r hr).1, (hne r hr).2]
    have hp' : s'.share p g = Pc.share o q g := by
      unfold St.share
      rw [hself'.1, hself'.2]
    have hc := hcount g
    have hr := h.refs g
    rw [hp'] at hsum
    linarith
  · by_cases hr : r = p
    · rw [hr, hself'.1, hself'.2]
      exact hloc
    · rw [(hne r hr).1, (hne r hr).2]
      exact h.loc r
  · by_cases hr : r = p
    · rw [hr] at hf ⊢
      rw [hself'.2] at hf
      obtain ⟨hnp, hchild⟩ := hforks np i hf
      rw [(hne np hnp).1, (hne np hnp).2]
      exact hchild
    · -- nobody forks the process that takes the step
      rw [(hne r hr).2] at hf
      have hnp : np ≠ p := by
        rintro rfl
        exact hself r i hf
      rw [(hne np hnp).1, (hne np hnp).2]
      exact h.child r np i hf
  · by_cases hr : r = p
    · rw [hr, hself'.2] at hg
      exact hfresh g hg
    · rw [(hne r hr).2] at hg
      exact hother r hr g hg

omit [Fintype T] in
/-- The claims after one entry and one process have changed. -/
theorem claim_eq {x : File} (hfile : s'.file = update s.file f x) (hpc : s'.pc = update s.pc p q) :
    s'.claim = update (update s.claim (.inl f) x.pipeEnd) (.inr p) q.closing := by
  funext a
  cases a with
  | inl g =>
    rw [update_of_ne Sum.inl_ne_inr]
    show (s'.file g).pipeEnd = _
    rw [hfile]
    by_cases hg : g = f
    · rw [hg, update_self, update_self]
    · rw [update_of_ne hg, update_of_ne fun h => hg (Sum.inl.inj h)]
      rfl
  | inr r =>
    show (s'.pc r).closing = _
    rw [hpc]
    by_cases hr : r = p
    · rw [hr, update_self, update_self]
    · rw [update_of_ne hr, update_of_ne fun h => hr (Sum.inr.inj h), update_of_ne Sum.inr_ne_inl]
      rfl

omit [Fintype T] [DecidableEq T] in
theorem ends_same (h : s.Ends) (hclaim : s'.claim = s.claim) (hpipe : s'.pipe = s.pipe) : s'.Ends :=
  ⟨hclaim ▸ hpipe ▸ h.claimed, hpipe ▸ h.live⟩

/-- One entry changes. -/
theorem entry (h : s.Inv) {x : File} (hfile : s'.file = update s.file f x)
    (hof : s'.ofile = s.ofile)
    (hpc : s'.pc = update s.pc p q) (hnp : s'.panicked = none)
    (hself : ∀ r i, (s.pc r).forks ≠ some (p, i))
    (hcount : ∀ g, Pc.share (s.ofile p) q g = s.share p g + if f = g then (x.ref : ℤ) -
      (s.file f).ref else 0)
    (hty : x.ref = 0 → x.type = .none) (hloc : q.Local (s.ofile p))
    (hforks : s.Forking p q)
    (hfresh : ∀ g ∈ q.fresh, (g = f ∧ x.ref = 1 ∧ x.type = .none) ∨ (g ≠ f ∧ g ∈ (s.pc p).fresh))
    (hother : ∀ r, r ≠ p → f ∉ (s.pc r).fresh) (hends : s'.Ends) : s'.Inv := by
  have hne : ∀ g, g ≠ f → s'.file g = s.file g := fun g hg => by rw [hfile, update_of_ne hg]
  have hf : s'.file f = x := by rw [hfile, update_self]
  refine h.step (hof.trans (update_eq_self p s.ofile).symm) hpc hnp hself (fun g => ?_)
    (fun g hg => ?_) hloc
    hforks (fun g hg => ?_) (fun r hr g hg => ?_) hends
  · rw [hcount g]
    by_cases hg : f = g
    · rw [if_pos hg, ← hg, hf]
      ring
    · rw [if_neg hg, hne g (Ne.symm hg)]
      ring
  · by_cases hgf : g = f
    · rw [hgf, hf] at hg ⊢
      exact hty hg
    · rw [hne g hgf] at hg ⊢
      exact h.typed g hg
  · rcases hfresh g hg with ⟨rfl, h1⟩ | ⟨hgf, h1⟩
    · rw [hf]
      exact h1
    · rw [hne g hgf]
      exact h.fresh p g h1
  · have hgf : g ≠ f := by
      rintro rfl
      exact hother r hr hg
    rw [hne g hgf]
    exact h.fresh r g hg

omit [Fintype T] in
/-- Nobody's claim changes. -/
theorem ends_entry (h : s.Ends) {x : File} (hfile : s'.file = update s.file f x)
    (hpipe : s'.pipe = s.pipe)
    (hpc : s'.pc = update s.pc p q) (hx : x.pipeEnd = (s.file f).pipeEnd)
    (hcl : q.closing = (s.pc p).closing) : s'.Ends := by
  refine ends_same h ?_ hpipe
  rw [claim_eq hfile hpc, hx, hcl]
  have h1 : update s.claim (.inl f) (s.file f).pipeEnd = s.claim := update_eq_self (.inl f) s.claim
  rw [h1]
  exact update_eq_self (.inr p) s.claim

/-- A process changes only its descriptors and where it is. -/
theorem own (h : s.Inv) (hfile : s'.file = s.file) (hpipe : s'.pipe = s.pipe)
    (hof : s'.ofile = update s.ofile p o) (hpc : s'.pc = update s.pc p q)
    (hnp : s'.panicked = none) (hself : ∀ r i, (s.pc r).forks ≠ some (p, i))
    (hcl : q.closing = (s.pc p).closing)
    (hcount : ∀ g, Pc.share o q g = s.share p g) (hloc : q.Local o)
    (hforks : s.Forking p q) (hfresh : ∀ g ∈ q.fresh, g ∈ (s.pc p).fresh) : s'.Inv := by
  have f : Ent := ⟨0, by decide⟩
  have hfile' : s'.file = update s.file f (s.file f) := by rw [update_eq_self, hfile]
  refine h.step hof hpc hnp hself (fun g => ?_) (hfile ▸ h.typed) hloc hforks (fun g hg => ?_)
    (fun r _ g hg => ?_)
    (ends_entry h.ends hfile' hpipe hpc rfl hcl)
  · rw [hcount g, hfile]
    ring
  · rw [hfile]
    exact h.fresh p g (hfresh g hg)
  · rw [hfile]
    exact h.fresh r g hg

/-- `own` for a step that leaves the descriptors as they are. -/
theorem jump (h : s.Inv) (hself : ∀ r i, (s.pc r).forks ≠ some (p, i))
    (hcl : q.closing = (s.pc p).closing)
    (hheld : q.held = (s.pc p).held) (howed : q.owed = (s.pc p).owed) (hloc : q.Local (s.ofile p))
    (hforks : s.Forking p q) (hfresh : ∀ g ∈ q.fresh, g ∈ (s.pc p).fresh) : (s.jump p q).Inv := by
  refine h.own (o := s.ofile p) rfl rfl (update_eq_self p s.ofile).symm rfl h.quiet hself hcl
    (fun g => ?_)
    hloc hforks hfresh
  unfold St.share Pc.share
  rw [hheld, howed]

/-! ## Steps on the table -/

omit [Fintype T] [DecidableEq T] in
theorem ref_of_filealloc (hf : s.filealloc = some f) : (s.file f).ref = 0 := by
  have := List.find?_some hf
  simpa using this

/-- An entry is allocated. -/
theorem filealloc (h : s.Inv) (hf : s.filealloc = some f)
    (hself : ∀ r i, (s.pc r).forks ≠ some (p, i))
    (hcl : q.closing = (s.pc p).closing) (hheld : q.held.Perm (f :: (s.pc p).held))
    (howed : q.owed = (s.pc p).owed)
    (hloc : q.Local (s.ofile p)) (hforks : q.forks = none)
    (hfresh : ∀ g ∈ q.fresh, g = f ∨ g ∈ (s.pc p).fresh) :
    ((s.setFile f { s.file f with ref := 1 }).jump p q).Inv := by
  have h0 := ref_of_filealloc hf
  have hno : ∀ r, f ∉ (s.pc r).fresh := fun r hr => by
    rw [(h.fresh r f hr).1] at h0
    cases h0
  refine h.entry rfl rfl rfl h.quiet hself (fun g => ?_) nofun hloc (fun np i hi => ?_)
    (fun g hg => ?_)
    (fun r _ => hno r) (ends_entry h.ends rfl rfl rfl rfl hcl)
  · unfold St.share Pc.share
    rw [howed, hheld.count_eq, count_cons, h0]
    simp only [beq_iff_eq]
    split <;> push_cast <;> ring
  · rw [hforks] at hi
    cases hi
  · rcases hfresh g hg with rfl | hg'
    · exact .inl ⟨rfl, rfl, h.typed g h0⟩
    · exact .inr ⟨fun hgf => hno p (hgf ▸ hg'), hg'⟩

/-- `filedup` by a process that has a share in the entry. -/
theorem filedup (h : s.Inv) (hsh : 1 ≤ s.share p f) (hself : ∀ r i, (s.pc r).forks ≠ some (p, i))
    (hcl : q.closing = (s.pc p).closing)
    (hcount : ∀ g, Pc.share (s.ofile p) q g = s.share p g + if f = g then 1 else 0)
    (hloc : q.Local (s.ofile p))
    (hforks : s.Forking p q) (hfresh : q.fresh = []) : (s.filedup p f q).Inv := by
  have hle := h.share_le p f
  unfold St.filedup
  rw [if_neg (by omega)]
  refine h.entry rfl rfl rfl h.quiet hself (fun g => ?_) nofun hloc hforks (fun g hg => ?_)
    (fun r hr => h.not_fresh hsh hr) (ends_entry h.ends rfl rfl rfl rfl hcl)
  · rw [hcount g]
    split <;> push_cast <;> ring
  · rw [hfresh] at hg
    cases hg

omit [DecidableEq T] in
/-- `fileclose` gives up one reference; with a descriptor that is still there, it is owed. -/
theorem share_next (h : s.Inv) (hpc : s.pc p = .fileclose f k) (page : ℕ) (w : Bool) (g : Ent) :
    Pc.share (s.ofile p) (.pipeclose page w k : Pc T) g = s.share p g - if f = g then 1 else 0 := by
  have hl := h.loc p
  unfold St.share Pc.share
  rw [hpc] at hl ⊢
  cases k with
  | close fs =>
    simp only [Pc.held, Pc.owed, count_cons, count_nil, beq_iff_eq]
    split <;> push_cast <;> ring
  | clear fd f' =>
    obtain ⟨rfl, -⟩ := hl
    simp only [Pc.held, Pc.owed, count_cons, count_nil, beq_iff_eq]
    split <;> push_cast <;> ring

omit [DecidableEq T] in
theorem share_fileclose (h : s.Inv) (hpc : s.pc p = .fileclose f k) : 1 ≤ s.share p f := by
  have hnn : (Pc.pipeclose 0 false k : Pc T).Local (s.ofile p) := by
    have hl := h.loc p
    rw [hpc] at hl
    cases k with
    | close fs => exact trivial
    | clear fd f' =>
      obtain ⟨rfl, hl⟩ := hl
      exact hl
  have h1 := share_nonneg hnn f
  rw [h.share_next hpc, if_pos rfl] at h1
  omega

/-- The part of `fileclose` under the lock. -/
theorem fileclose (h : s.Inv) (hpc : s.pc p = .fileclose f k) : (s.fileclose p f k).Inv := by
  have hself := h.not_child (p := p) (by rw [hpc]; exact nofun)
  have hsh := h.share_fileclose hpc
  have hle := h.share_le p f
  have hloc : ∀ page w, (Pc.pipeclose page w k : Pc T).Local (s.ofile p) := by
    intro page w
    have hl := h.loc p
    rw [hpc] at hl
    cases k with
    | close fs => exact trivial
    | clear fd f' =>
      obtain ⟨rfl, hl⟩ := hl
      exact hl
  have hnext : ∀ g, Pc.share (s.ofile p) (k.next : Pc T) g = s.share p g - if f = g then 1 else
      0 := by
    intro g
    rw [← h.share_next hpc 0 false, Pc.share, Pc.share, After.next_held 0 false,
      After.next_owed 0 false]
  have hcl : (s.pc p).closing = none := by rw [hpc]; rfl
  have hforks : ∀ np i, (k.next : Pc T).forks = some (np, i) →
      np ≠ p ∧ s.pc np = .embryo p ∧ ∀ j : Fd, i ≤ j → s.ofile np j = none := by
    intro np i hi
    rw [After.next_forks] at hi
    cases hi
  have hother : ∀ r, r ≠ p → f ∉ (s.pc r).fresh := fun r hr => h.not_fresh hsh hr
  unfold St.fileclose
  dsimp only
  rw [if_neg (by omega)]
  split
  · next hlast =>
    refine h.entry rfl rfl rfl h.quiet hself (fun g => ?_) (fun h0 => ?_)
      (k.next_local 0 false (hloc 0 false)) hforks (fun g hg => ?_) hother
      (ends_entry h.ends rfl rfl rfl rfl (k.next_closing.trans hcl.symm))
    · rw [hnext g]
      dsimp only
      split
      · push_cast [Nat.one_le_of_lt (Nat.lt_of_sub_pos hlast)]
        ring
      · ring
    · dsimp only at h0
      omega
    · rw [After.next_fresh] at hg
      cases hg
  · have h1 : (s.file f).ref = 1 := by omega
    by_cases hty : (s.file f).type = .pipe
    · -- the claim on the end passes from the entry to the process
      rw [if_pos hty]
      have hclaim : s.claim (.inl f) = some ((s.file f).pipe, (s.file f).writable) := if_pos hty
      refine h.entry rfl rfl rfl h.quiet hself (fun g => ?_) (fun _ => rfl) (hloc _ _) nofun
        (fun g hg => nomatch hg)
        hother ⟨?_, h.ends.live⟩
      · rw [h.share_next hpc, h1]
        split <;> push_cast <;> ring
      · have hfree : s.claim (.inr p) = none := hcl
        refine (h.ends.claimed.move hclaim hfree).congr ?_ fun _ => Iff.rfl
        exact claim_eq (s := s) (p := p) (f := f) (x := { s.file f with ref := 0, type := .none })
          (q := .pipeclose (s.file f).pipe (s.file f).writable k) rfl rfl
    · rw [if_neg hty]
      have hend : (s.file f).pipeEnd = none := if_neg hty
      refine h.entry rfl rfl rfl h.quiet hself (fun g => ?_) (fun _ => rfl)
        (k.next_local 0 false (hloc 0 false)) hforks (fun g hg => ?_) hother
        (ends_entry h.ends rfl rfl rfl hend.symm (k.next_closing.trans hcl.symm))
      · rw [hnext g, h1]
        split <;> push_cast <;> ring
      · rw [After.next_fresh] at hg
        cases hg

/-- `sys_open` sets up its entry. -/
theorem openSet (h : s.Inv) {m : Mode} (hpc : s.pc p = .openSet f m) : ((s.setFile f { s.file f with
      type := if m.device then .device else .inode, readable := m.readable, writable :=
        m.writable }).jump p .user).Inv := by
  have hself := h.not_child (p := p) (by rw [hpc]; exact nofun)
  have hmem : f ∈ (s.pc p).fresh := by
    rw [hpc]
    exact mem_singleton_self f
  obtain ⟨h1, hty⟩ := h.fresh p f hmem
  have hend : (s.file f).pipeEnd = none := if_neg (by rw [hty]; exact nofun)
  refine h.entry rfl rfl rfl h.quiet hself (fun g => ?_) (fun h0 => ?_) trivial nofun
    (fun g hg => nomatch hg)
    (fun r hr => h.not_fresh (fresh_share (h.loc p) hmem) hr) (ends_entry h.ends rfl rfl rfl ?_ ?_)
  · unfold St.share Pc.share
    rw [hpc]
    simp [Pc.held, Pc.owed]
  · dsimp only at h0
    omega
  · rw [hend]
    refine if_neg ?_
    split <;> exact nofun
  · rw [hpc]
    rfl

variable {page : ℕ}

omit [Fintype T] [DecidableEq T] in
theorem openEnd_update {pipe : ℕ → Option Pipe} {v : Option Pipe} (e : ℕ × Bool) :
    OpenEnd (update pipe page v) e ↔
      (e.1 = page ∧ ∃ x, v = some x ∧ x.isOpen e.2 = true) ∨ (e.1 ≠ page ∧ OpenEnd pipe e) := by
  unfold OpenEnd
  by_cases he : e.1 = page
  · rw [he, update_self]
    simp
  · rw [update_of_ne he]
    simp [he]

omit [DecidableEq T] in
/-- The entries that `pipealloc` has allocated are two. -/
theorem pipePage_ne (h : s.Inv) {rf wf : Ent} (hpc : s.pc p = .pipePage rf wf) : wf ≠ rf := by
  rintro rfl
  have hle := h.share_le p wf
  have h1 := (h.fresh p wf (by rw [hpc]; exact mem_cons_self)).1
  unfold St.share Pc.share at hle
  rw [hpc] at hle
  simp only [Pc.held, Pc.owed, count_cons_self, count_nil] at hle
  omega

omit [Fintype T] in
/-- Both ends of a new pipe are claimed. -/
theorem newPipe_ends (h : s.Ends) {rf wf : Ent} (hne : wf ≠ rf) (hr : (s.file rf).pipeEnd = none)
    (hw : (s.file wf).pipeEnd = none) (hpage : s.pipe page = none) :
    (s.newPipe rf wf page).Ends := by
  have hno : ∀ w, ¬ OpenEnd s.pipe (page, w) := by
    rintro w ⟨x, hx, -⟩
    rw [hpage] at hx
    cases hx
  have hr' : s.claim (.inl rf) = none := hr
  have hw' : update s.claim (.inl rf) (some (page, false)) (.inl wf) = none := by
    rw [update_of_ne fun h' => hne (Sum.inl.inj h')]
    exact hw
  have h2 := (h.claimed.add hr' (hno false)).add hw' (e := (page, true)) fun h' =>
    h'.elim nofun (hno true)
  refine ⟨h2.congr (funext fun a => ?_) fun e => ?_, fun page' x hx => ?_⟩
  · cases a with
    | inl g =>
      show ((s.newPipe rf wf page).file g).pipeEnd = _
      unfold St.newPipe St.setFile
      dsimp only
      by_cases hg : g = wf
      · rw [hg, update_self, update_self]
        rfl
      · rw [update_of_ne hg, update_of_ne fun h' => hg (Sum.inl.inj h')]
        by_cases hg' : g = rf
        · rw [hg', update_self, update_self]
          rfl
        · rw [update_of_ne hg', update_of_ne fun h' => hg' (Sum.inl.inj h')]
          rfl
    | inr r =>
      rfl
  · show OpenEnd (update s.pipe page _) e ↔ _
    rw [openEnd_update]
    obtain ⟨a, b⟩ := e
    dsimp only
    by_cases ha : a = page
    · subst ha
      cases b
      · simp [Pipe.isOpen]
      · simp [Pipe.isOpen]
    · simp [ha]
  · change update s.pipe page _ page' = some x at hx
    by_cases ha : page' = page
    · rw [ha, update_self] at hx
      cases hx
      exact .inl rfl
    · rw [update_of_ne ha] at hx
      exact h.live page' x hx

/-- `pipealloc` sets up the two ends of a new pipe. -/
theorem newPipe (h : s.Inv) {rf wf : Ent} (hpc : s.pc p = .pipePage rf wf)
    (hpage : s.pipe page = none) :
    ((s.newPipe rf wf page).jump p (.pipeFd0 rf wf)).Inv := by
  have hself := h.not_child (p := p) (by rw [hpc]; exact nofun)
  have hmem : ∀ g, g = rf ∨ g = wf → g ∈ (s.pc p).fresh := by
    intro g hg
    rw [hpc]
    simpa [Pc.fresh] using hg
  have hend : ∀ g, g = rf ∨ g = wf → (s.file g).pipeEnd = none := fun g hg =>
    if_neg (by rw [(h.fresh p g (hmem g hg)).2]; exact nofun)
  have hne := h.pipePage_ne hpc
  -- the counts stay, and so do the other entries
  have href : ∀ g, ((s.newPipe rf wf page).file g).ref = (s.file g).ref := by
    intro g
    unfold St.newPipe St.setFile
    dsimp only
    by_cases hg : g = wf
    · rw [hg, update_self, update_of_ne hne]
    · rw [update_of_ne hg]
      by_cases hg' : g = rf
      · rw [hg', update_self]
      · rw [update_of_ne hg']
  have hfile : ∀ g, g ≠ rf → g ≠ wf → (s.newPipe rf wf page).file g = s.file g := by
    intro g h1 h2
    unfold St.newPipe St.setFile
    dsimp only
    rw [update_of_ne h2, update_of_ne h1]
  have hsplit : ∀ g, (g = rf ∨ g = wf) ∨ (g ≠ rf ∧ g ≠ wf) := fun g => by tauto
  refine h.step (o := s.ofile p) (update_eq_self p s.ofile).symm rfl h.quiet hself (fun g => ?_)
    (fun g hg => ?_) trivial nofun (fun g hg => nomatch hg) (fun r hr g hg => ?_) ?_
  · show (((s.newPipe rf wf page).file g).ref : ℤ) - (s.file g).ref = _
    unfold St.share Pc.share
    rw [href, hpc]
    simp [Pc.held, Pc.owed]
  · change ((s.newPipe rf wf page).file g).ref = 0 at hg
    show ((s.newPipe rf wf page).file g).type = .none
    rcases hsplit g with hg' | ⟨h1, h2⟩
    · rw [href, (h.fresh p g (hmem g hg')).1] at hg
      cases hg
    · rw [hfile g h1 h2] at hg ⊢
      exact h.typed g hg
  · show ((s.newPipe rf wf page).file g).ref = 1 ∧ ((s.newPipe rf wf page).file g).type = .none
    rcases hsplit g with hg' | ⟨h1, h2⟩
    · exact absurd hg (h.not_fresh (fresh_share (h.loc p) (hmem g hg')) hr)
    · rw [hfile g h1 h2]
      exact h.fresh r g hg
  · refine ends_entry (newPipe_ends h.ends hne (hend rf (.inl rfl)) (hend wf (.inr rfl)) hpage)
      (f := wf) (update_eq_self wf _).symm rfl rfl rfl ?_
    show _ = (s.pc p).closing
    rw [hpc]
    rfl

/-- An end is closed, and the page freed when the other one is closed too. -/
theorem pipeclose (h : s.Inv) {w : Bool} (hpc : s.pc p = .pipeclose page w k) :
    (s.pipeclose p page w k).Inv := by
  have hself := h.not_child (p := p) (by rw [hpc]; exact nofun)
  have hclaim : s.claim (.inr p) = some (page, w) := by
    show (s.pc p).closing = _
    rw [hpc]
    rfl
  obtain ⟨x, hx, hopen⟩ : OpenEnd s.pipe (page, w) := (h.ends.claimed.iff _).mpr ⟨_, hclaim⟩
  have hloc := h.loc p
  rw [hpc] at hloc
  unfold St.pipeclose
  rw [hx]
  dsimp only
  refine h.step (o := s.ofile p) (update_eq_self p s.ofile).symm rfl h.quiet hself (fun g => ?_)
    h.typed
    (k.next_local page w hloc) (fun np i hi => ?_) (fun g hg => ?_) (fun r _ g hg => h.fresh r g hg)
      ⟨?_, ?_⟩
  · unfold St.share Pc.share
    rw [hpc, After.next_held page w, After.next_owed page w]
    show ((s.file g).ref : ℤ) - (s.file g).ref = _
    ring
  · rw [After.next_forks] at hi
    cases hi
  · rw [After.next_fresh] at hg
    cases hg
  · refine (h.ends.claimed.drop hclaim).congr (funext fun a => ?_) fun e => ?_
    · cases a with
      | inl g => rfl
      | inr r =>
        show (update s.pc p k.next r).closing = update s.claim (.inr p) none (.inr r)
        by_cases hr : r = p
        · rw [hr, update_self, update_self, After.next_closing]
        · rw [update_of_ne hr, update_of_ne fun h' => hr (Sum.inr.inj h')]
          rfl
    · show OpenEnd (update s.pipe page _) e ↔ _
      rw [openEnd_update]
      obtain ⟨a, b⟩ := e
      unfold OpenEnd
      dsimp only
      by_cases ha : a = page
      · subst ha
        rw [hx]
        cases w <;> cases b <;> cases hro : x.readopen <;> cases hwo : x.writeopen <;>
          simp_all [Pipe.shut, Pipe.isOpen]
      · simp [ha]
  · intro page' y hy
    change update s.pipe page _ page' = some y at hy
    by_cases ha : page' = page
    · rw [ha, update_self] at hy
      split at hy
      · cases hy
      · rename_i hne
        cases hy
        by_contra hcon
        push Not at hcon
        exact hne ⟨by simpa using hcon.1, by simpa using hcon.2⟩
    · rw [update_of_ne ha] at hy
      exact h.ends.live page' y hy

/-! ## Fork -/

/-- A new process is allocated. -/
theorem forkBegin (h : s.Inv) {np : T} (hpc : s.pc p = .user) (hnp : s.pc np = .unused) :
    ((s.jump np (.embryo p)).jump p (.forkDup np 0)).Inv := by
  have hne : np ≠ p := by
    rintro rfl
    rw [hpc] at hnp
    cases hnp
  have hempty := h.loc np
  rw [hnp] at hempty
  have h1 : (s.jump np (.embryo p)).Inv := by
    refine h.jump (h.not_child (by rw [hnp]; exact nofun)) ?_ ?_ ?_ trivial nofun nofun
    all_goals rw [hnp]; rfl
  have hp : (s.jump np (.embryo p)).pc p = .user := (update_of_ne hne.symm ..).trans hpc
  refine h1.jump (h1.not_child (by rw [hp]; exact nofun)) ?_ ?_ ?_ trivial (fun np' i hi => ?_)
    nofun
  · rw [hp]
    rfl
  · rw [hp]
    rfl
  · rw [hp]
    rfl
  · cases hi
    exact ⟨hne, update_self .., fun j _ => hempty j⟩

/-- The child of a fork takes over a reference. -/
theorem forkSet (h : s.Inv) {np : T} {fd : Fd} (hpc : s.pc p = .forkSet np fd f) :
    ((s.setFd np fd (some f)).jump p (.forkDup np (fd + 1))).Inv := by
  obtain ⟨hnp, hnone⟩ := h.child p np fd (by rw [hpc]; rfl)
  have hne : np ≠ p := by
    rintro rfl
    rw [hpc] at hnp
    cases hnp
  set s' := (s.setFd np fd (some f)).jump p (.forkDup np (fd + 1)) with hs'
  have hpc' : s'.pc p = .forkDup np (fd + 1) := update_self ..
  have hof' : s'.ofile np = update (s.ofile np) fd (some f) := update_self ..
  have hpcs : ∀ r, r ≠ p → s'.pc r = s.pc r := fun r hr => update_of_ne hr ..
  have hofs : ∀ r, r ≠ np → s'.ofile r = s.ofile r := fun r hr => update_of_ne hr ..
  refine ⟨h.quiet, fun g => ?_, h.typed, fun r => ?_, fun r m i hi => ?_, fun r g hg => ?_, ?_⟩
  · -- the parent gives the reference that it holds, the child gets a descriptor
    have hsum := sum_change (t := p) (f := fun r => s.share r g)
      (g := update (fun r => s.share r g) p (s'.share p g)) fun r hr => update_of_ne hr ..
    have hsum' := sum_change (t := np) (f := update (fun r => s.share r g) p (s'.share p g))
      (g := fun r => s'.share r g) fun r hr => by
        by_cases hrp : r = p
        · rw [hrp, update_self]
        · rw [update_of_ne hrp]
          unfold St.share
          rw [hpcs r hrp, hofs r hr]
    rw [update_self] at hsum
    rw [update_of_ne hne] at hsum'
    have hp : s'.share p g = s.share p g - if f = g then 1 else 0 := by
      unfold St.share Pc.share
      rw [hpc, hpc', hofs p hne.symm]
      simp only [Pc.held, Pc.owed, count_cons, count_nil, beq_iff_eq]
      split <;> push_cast <;> ring
    have hc : s'.share np g = s.share np g + if f = g then 1 else 0 := by
      unfold St.share Pc.share
      rw [hpcs np hne, hof', slots_fill (hnone fd (Nat.le_refl _))]
      ring
    have hr : ((s'.file g).ref : ℤ) = (s.file g).ref := rfl
    rw [hr, h.refs g]
    rw [hp] at hsum hsum'
    rw [hc] at hsum'
    linarith
  · by_cases hrp : r = p
    · rw [hrp, hpc']
      exact trivial
    · rw [hpcs r hrp]
      by_cases hrn : r = np
      · rw [hrn, hnp]
        exact trivial
      · rw [hofs r hrn]
        exact h.loc r
  · by_cases hrp : r = p
    · rw [hrp] at hi ⊢
      rw [hpc'] at hi
      cases hi
      rw [hpcs np hne, hof']
      refine ⟨hnp, fun j hj => ?_⟩
      have hjf : j ≠ fd := by
        rintro rfl
        omega
      rw [update_of_ne hjf]
      exact hnone j (by omega)
    · rw [hpcs r hrp] at hi
      obtain ⟨h1, h2⟩ := h.child r m i hi
      have hmn : m ≠ np := by
        rintro rfl
        rw [hnp] at h1
        exact hrp (Pc.embryo.inj h1).symm
      have hmp : m ≠ p := by
        rintro rfl
        rw [hpc] at h1
        cases h1
      rw [hpcs m hmp, hofs m hmn]
      exact ⟨h1, h2⟩
  · by_cases hrp : r = p
    · rw [hrp, hpc'] at hg
      cases hg
    · rw [hpcs r hrp] at hg
      exact h.fresh r g hg
  · refine ends_entry h.ends (f := f) (update_eq_self f s.file).symm rfl rfl rfl ?_
    rw [hpc]
    rfl

/-- The child of a fork becomes a process. -/
theorem forkEnd (h : s.Inv) {np : T} {i : ℕ} (hpc : s.pc p = .forkDup np i) :
    ((s.jump np .user).jump p .user).Inv := by
  obtain ⟨hnp, -⟩ := h.child p np i (by rw [hpc]; rfl)
  have hne : np ≠ p := by
    rintro rfl
    rw [hpc] at hnp
    cases hnp
  have hcomm : (s.jump np .user).jump p .user = (s.jump p .user).jump np .user := by
    unfold St.jump
    rw [update_comm hne]
  rw [hcomm]
  have h1 : (s.jump p .user).Inv := by
    refine h.jump (h.not_child (by rw [hpc]; exact nofun)) ?_ ?_ ?_ trivial nofun nofun
    all_goals rw [hpc]; rfl
  have hnp' : (s.jump p .user).pc np = .embryo p := (update_of_ne hne ..).trans hnp
  refine h1.jump (fun r j hf => ?_) ?_ ?_ ?_ trivial nofun nofun
  · -- the parent was the only one that could fork it
    obtain ⟨h2, -⟩ := h1.child r np j hf
    rw [hnp'] at h2
    cases h2
    have hp : (s.jump p .user).pc p = .user := update_self ..
    rw [hp] at hf
    cases hf
  all_goals rw [hnp']; rfl

end St.Inv

end Xv6.Ftable
