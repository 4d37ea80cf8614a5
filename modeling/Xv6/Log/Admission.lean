/-
  Log space admission: what `begin_op`'s reservation of `maxOpBlocks` per operation buys.

  `log_write` tests for a full log before it looks for the block in the log. Three operations
  that use their whole budget fill the log exactly, and then a repeated `log_write` of a block
  that is already there panics although it needs no space (`log_write_full_panics`). This is
  the only way: `log_admission` shows that in every run without a repeated write to a full log
  nothing panics, the log never overflows and holds no block twice, and a commit runs only
  between operations.

  The reservation is accounted block by block: `Budget` gives each open operation the number
  of blocks it has added to the log so far, and what is left of its budget still fits.
-/
import Xv6.Log.Invariant

namespace Xv6.Log

open Xv6.Lib Function Finset

variable {start : Nat} {s s' : St}

/-- A step of one uptime that is not a repeated write of a logged block to a full log. -/
def NotFullAbsorb (s : St) : Ev → Prop
  | .logWrite _ b _ => ¬ (b ∈ s.lh ∧ s.lh.length = logBlocks)
  | .crash => False
  | _ => True

instance (s : St) (e : Ev) : Decidable (NotFullAbsorb s e) :=
  match e with
  | .logWrite _ b _ => inferInstanceAs (Decidable (¬ (b ∈ s.lh ∧ s.lh.length = logBlocks)))
  | .crash => isFalse id
  | .beginOp _ | .endOp _ | .disk | .commitDone | .boot | .initlogDone => isTrue trivial

/-- The operation stays within `maxOpBlocks` distinct blocks: what `param.h` asks of the callers. -/
def withinBudget (s : St) : Ev → Bool
  | .logWrite t b _ => (s.ops t).all fun seen => b ∈ seen ∨ seen.length < maxOpBlocks
  | _ => true

/-- Every open operation has logged what it has seen, has added at most that many blocks, and
    the log has room for what is left of all budgets. -/
def Budget (s : St) : Prop :=
  ∃ (A : Finset Nat) (added : Nat → Nat), (∀ t, t ∈ A ↔ s.ops t ≠ none) ∧
    s.outstanding = A.card ∧
    (∀ t seen, s.ops t = some seen →
      added t ≤ seen.length ∧ seen.length ≤ maxOpBlocks ∧ ∀ b ∈ seen, b ∈ s.lh) ∧
    s.lh.length + ∑ t ∈ A, (maxOpBlocks - added t) ≤ logBlocks

theorem Budget.congr (hb : Budget s) (hlh : s'.lh = s.lh) (hops : s'.ops = s.ops)
    (hout : s'.outstanding = s.outstanding) : Budget s' := by
  obtain ⟨A, added, hA, hcard, hseen, hfit⟩ := hb
  exact ⟨A, added, by rw [hops]; exact hA, hout.trans hcard, by rw [hops, hlh]; exact hseen,
    by rw [hlh]; exact hfit⟩

/-- With no operation open the log may have any length up to its capacity. -/
theorem Budget.of_idle (hops : ∀ t, s.ops t = none) (hout : s.outstanding = 0)
    (hlen : s.lh.length ≤ logBlocks) : Budget s := by
  refine ⟨∅, fun _ => 0, ?_, by simpa using hout, ?_, by simpa using hlen⟩
  · intro t
    simp [hops t]
  · intro t seen ht
    rw [hops t] at ht
    cases ht

variable {t : Nat}

/-- `begin_op` reserves a whole budget. -/
theorem Budget.beginOp (hb : Budget s) (ht : s.ops t = none) (hs : beginOp s = some s') :
    Budget { s' with ops := update s'.ops t (some []) } := by
  obtain ⟨A, added, hA, hcard, hseen, hfit⟩ := hb
  obtain ⟨_, hroom, rfl⟩ := beginOp_eq hs
  have hnot : t ∉ A := by rw [hA, ht]; simp
  refine ⟨insert t A, update added t 0, ?_, ?_, ?_, ?_⟩
  · intro u
    by_cases hu : u = t
    · simp [hu]
    · simp [hu, hA]
  · rw [card_insert_of_notMem hnot]
    simp [hcard]
  · intro u seen hu
    by_cases hut : u = t
    · subst hut
      rw [show seen = [] by simpa using hu.symm]
      simp
    · simp only [update_of_ne hut] at hu ⊢
      exact hseen u seen hu
  · -- the open operations hold at most a whole budget each
    have hsum : ∑ u ∈ A, (maxOpBlocks - update added t 0 u) ≤ A.card * maxOpBlocks := by
      rw [← smul_eq_mul]
      exact sum_le_card_nsmul A _ _ (fun u _ => Nat.sub_le _ _)
    have hroom : (s.lh.length : Int) + (A.card + 1) * maxOpBlocks ≤ logBlocks := by
      rw [← hcard]
      exact hroom
    have hroom : s.lh.length + (A.card + 1) * maxOpBlocks ≤ logBlocks := by exact_mod_cast hroom
    rw [sum_insert hnot, update_self]
    show s.lh.length + _ ≤ _
    have : (A.card + 1) * maxOpBlocks = A.card * maxOpBlocks + maxOpBlocks := Nat.succ_mul _ _
    omega

/-- `end_op` gives back what is left of its budget. -/
theorem Budget.finish (hb : Budget s) (ht : s.ops t ≠ none) (hlh : s'.lh = s.lh)
    (hout : s'.outstanding = s.outstanding - 1) (hops : s'.ops = update s.ops t none) :
    Budget s' := by
  obtain ⟨A, added, hA, hcard, hseen, hfit⟩ := hb
  have hmem : t ∈ A := (hA t).mpr ht
  refine ⟨A.erase t, added, ?_, ?_, ?_, ?_⟩
  · intro u
    rw [hops]
    by_cases hu : u = t
    · simp [hu]
    · simp [hu, hA]
  · have hpos := Finset.card_pos.mpr ⟨t, hmem⟩
    rw [card_erase_of_mem hmem, hout, hcard]
    omega
  · intro u seen hu
    rw [hops] at hu
    by_cases hut : u = t
    · rw [hut, update_self] at hu
      cases hu
    · rw [update_of_ne hut] at hu
      rw [hlh]
      exact hseen u seen hu
  · rw [hlh]
    have := sum_le_sum_of_subset (f := fun u => maxOpBlocks - added u) (A.erase_subset t)
    omega

/-- A block that is not in the log is new to the operation, so its budget is not used up and
    the log is not full. -/
theorem Budget.room (hb : Budget s) {b : Nat} {seen : List Nat} (ht : s.ops t = some seen)
    (hseen : b ∈ seen ∨ seen.length < maxOpBlocks) (hnew : b ∉ s.lh) : s.lh.length < logBlocks := by
  obtain ⟨A, added, hA, _, hop, hfit⟩ := hb
  obtain ⟨hadd, _, hsub⟩ := hop t seen ht
  have hlt : seen.length < maxOpBlocks := by
    rcases hseen with hmem | hlt
    · exact absurd (hsub b hmem) hnew
    · exact hlt
  have hmem : t ∈ A := (hA t).mpr (by rw [ht]; simp)
  have hterm := single_le_sum (f := fun u => maxOpBlocks - added u) (fun u _ => Nat.zero_le _) hmem
  omega

/-- A new block moves from the operation's budget to the log; a known one costs nothing. -/
theorem Budget.logWrite (hb : Budget s) {b : Nat} {seen : List Nat} (ht : s.ops t = some seen)
    (hseen : b ∈ seen ∨ seen.length < maxOpBlocks) (hlh : s'.lh = absorb b s.lh)
    (hout : s'.outstanding = s.outstanding)
    (hops : s'.ops = update s.ops t (some (if b ∈ seen then seen else b :: seen))) : Budget s' := by
  obtain ⟨A, added, hA, hcard, hop, hfit⟩ := hb
  obtain ⟨hadd, hle, hsub⟩ := hop t seen ht
  have hmem : t ∈ A := (hA t).mpr (by rw [ht]; simp)
  have hA' : ∀ u, u ∈ A ↔ s'.ops u ≠ none := by
    intro u
    rw [hops]
    by_cases hu : u = t
    · simp [hu, hmem]
    · simp [hu, hA]
  -- what the operation has seen, in both cases
  have hlen : (if b ∈ seen then seen else b :: seen).length ≤ maxOpBlocks := by
    split
    · exact hle
    · rename_i hnot
      rcases hseen with h | h
      · exact absurd h hnot
      · exact h
  have hsub' : ∀ a ∈ (if b ∈ seen then seen else b :: seen), a ∈ s'.lh := by
    intro a ha
    rw [hlh, mem_absorb]
    split at ha
    · exact .inr (hsub a ha)
    · rcases List.mem_cons.mp ha with h | h
      · exact .inl h
      · exact .inr (hsub a h)
  have hother : ∀ u seen', u ≠ t → s'.ops u = some seen' →
      added u ≤ seen'.length ∧ seen'.length ≤ maxOpBlocks ∧ ∀ a ∈ seen', a ∈ s'.lh := by
    intro u seen' hut hu
    rw [hops, update_of_ne hut] at hu
    obtain ⟨h1, h2, h3⟩ := hop u seen' hu
    refine ⟨h1, h2, ?_⟩
    intro a ha
    rw [hlh, mem_absorb]
    exact .inr (h3 a ha)
  by_cases hnew : b ∈ s.lh
  · refine ⟨A, added, hA', hout.trans hcard, ?_, ?_⟩
    · intro u seen' hu
      by_cases hut : u = t
      · subst hut
        rw [hops, update_self] at hu
        cases hu
        refine ⟨?_, hlen, hsub'⟩
        split
        · exact hadd
        · rw [List.length_cons]
          omega
      · exact hother u seen' hut hu
    · rw [hlh, absorb_eq, if_pos hnew]
      exact hfit
  · have hnot : b ∉ seen := fun h => hnew (hsub b h)
    have hlt : seen.length < maxOpBlocks := hseen.resolve_left hnot
    refine ⟨A, update added t (added t + 1), hA', hout.trans hcard, ?_, ?_⟩
    · intro u seen' hu
      by_cases hut : u = t
      · subst hut
        rw [hops, update_self] at hu
        cases hu
        refine ⟨?_, hlen, hsub'⟩
        rw [update_self, if_neg hnot, List.length_cons]
        omega
      · rw [update_of_ne hut]
        exact hother u seen' hut hu
    · have hrest : ∑ u ∈ A.erase t, (maxOpBlocks - update added t (added t + 1) u) =
          ∑ u ∈ A.erase t, (maxOpBlocks - added u) :=
        sum_congr rfl (fun u hu => by rw [update_of_ne (ne_of_mem_erase hu)])
      have h1 := add_sum_erase A (fun u => maxOpBlocks - added u) hmem
      have h2 := add_sum_erase A (fun u => maxOpBlocks - update added t (added t + 1) u) hmem
      simp only [update_self] at h1 h2
      rw [hrest] at h2
      rw [hlh, absorb_eq, if_neg hnew, List.length_append, List.length_singleton]
      omega

/-! ## Runs -/

/-- What `initlog` leaves in memory. -/
structure Fresh (s : St) : Prop where
  up : s.mode = .up
  lh : s.lh = []
  outstanding : s.outstanding = 0
  committing : s.committing = false
  ops : ∀ t, s.ops t = none
  todo : s.todo = []
  noPanic : s.panicked = none

/-- What an uptime without a repeated write to a full log keeps. -/
structure Admitted (s : St) : Prop where
  up : s.mode = .up
  noPanic : s.panicked = none
  nodup : s.lh.Nodup
  len : s.lh.length ≤ logBlocks
  budget : Budget s
  outZero : s.committing = true → s.outstanding = 0
  todoNil : s.committing = false → s.todo = []

theorem Budget.no_ops (hb : Budget s) (h0 : s.outstanding = 0) (t : Nat) : s.ops t = none := by
  obtain ⟨A, _, hA, hcard, _⟩ := hb
  have hA0 : A = ∅ := Finset.card_eq_zero.mp (by omega)
  by_contra hne
  have hmem := (hA t).mpr hne
  rw [hA0] at hmem
  simp at hmem

theorem Budget.outstanding_pos (hb : Budget s) (ht : s.ops t ≠ none) : 1 ≤ s.outstanding := by
  obtain ⟨A, _, hA, hcard, _⟩ := hb
  have := Finset.card_pos.mpr ⟨t, (hA t).mpr ht⟩
  omega

theorem length_absorb_le (b : Nat) (l : List Nat) : (absorb b l).length ≤ l.length + 1 := by
  rw [absorb_eq]
  split <;> simp

theorem admitted_beginOp (ha : Admitted s) (hs : step start s (.beginOp t) = some s') :
    Admitted s' := by
  simp only [step] at hs
  split at hs
  · rename_i hg
    obtain ⟨s1, h1, rfl⟩ := Option.map_eq_some_iff.mp hs
    have hbud := ha.budget.beginOp hg.2.2 h1
    obtain ⟨hc, _, rfl⟩ := beginOp_eq h1
    exact ⟨ha.up, ha.noPanic, ha.nodup, ha.len, hbud,
      fun hc' => absurd (hc.symm.trans hc') (by decide), ha.todoNil⟩
  · cases hs

/-- The write is to a new block, for which there is room, or to a logged one of a log that is
    not full. -/
theorem admitted_logWrite (ha : Admitted s) {b : Nat} {d : Block}
    (hbound : withinBudget s (.logWrite t b d) = true)
    (hok : ¬ (b ∈ s.lh ∧ s.lh.length = logBlocks))
    (hs : step start s (.logWrite t b d) = some s') : Admitted s' := by
  simp only [step] at hs
  split at hs
  · rename_i seen hop
    have hseen : b ∈ seen ∨ seen.length < maxOpBlocks := by
      simpa [withinBudget, hop] using hbound
    split at hs
    · cases hs
      have hlt : s.lh.length < logBlocks := by
        by_cases hmem : b ∈ s.lh
        · have := ha.len
          have hne : s.lh.length ≠ logBlocks := fun he => hok ⟨hmem, he⟩
          omega
        · exact ha.budget.room hop hseen hmem
      have hone : 1 ≤ s.outstanding := ha.budget.outstanding_pos (by rw [hop]; simp)
      rcases logWrite_cases s b d with ⟨hge, _⟩ | ⟨_, hlt1, _⟩ | ⟨_, _, he⟩
      · omega
      · omega
      · have hbud : Budget { logWrite s b d with
            ops := update (logWrite s b d).ops t (some (if b ∈ seen then seen else b :: seen)) } :=
          ha.budget.logWrite hop hseen (by rw [he]) (by rw [he]; rfl) (by rw [he]; rfl)
        rw [he] at hbud ⊢
        have hlen := length_absorb_le b s.lh
        exact ⟨ha.up, ha.noPanic, nodup_absorb ha.nodup, by show (absorb b s.lh).length ≤ _; omega,
          hbud, ha.outZero, ha.todoNil⟩
    · cases hs
  · cases hs

theorem admitted_endOp (ha : Admitted s) (hs : step start s (.endOp t) = some s') :
    Admitted s' := by
  simp only [step] at hs
  split at hs
  · rename_i hg
    cases hs
    have hone := ha.budget.outstanding_pos hg.2
    have hc : s.committing = false := by
      cases hc : s.committing with
      | false => rfl
      | true => have := ha.outZero hc; omega
    by_cases h0 : s.outstanding - 1 = 0
    · have he : endOp s = { s with outstanding := s.outstanding - 1, committing := true,
                                   todo := commit s.lh.length } := by
        simp [endOp, hc, h0]
      have hbud : Budget { endOp s with ops := update (endOp s).ops t none } :=
        ha.budget.finish hg.2 (by rw [he]) (by rw [he]) (by rw [he])
      rw [he] at hbud ⊢
      exact ⟨ha.up, ha.noPanic, ha.nodup, ha.len, hbud, fun _ => h0, by simp⟩
    · have he : endOp s = { s with outstanding := s.outstanding - 1 } := by
        simp [endOp, hc, h0]
      have hbud : Budget { endOp s with ops := update (endOp s).ops t none } :=
        ha.budget.finish hg.2 (by rw [he]) (by rw [he]) (by rw [he])
      rw [he] at hbud ⊢
      exact ⟨ha.up, ha.noPanic, ha.nodup, ha.len, hbud,
        fun hc' => absurd (hc.symm.trans hc') (by decide), ha.todoNil⟩
  · cases hs

/-- A disk write changes no counter, and the log only by clearing it. -/
theorem exec_fields (start : Nat) (op : DiskOp) (s : St) :
    (op.exec start s).ops = s.ops ∧ (op.exec start s).outstanding = s.outstanding ∧
      (op.exec start s).panicked = s.panicked ∧ (op.exec start s).mode = s.mode ∧
      (op.exec start s).committing = s.committing ∧
      ((op.exec start s).lh = s.lh ∨ (op.exec start s).lh = []) := by
  cases op <;> refine ⟨rfl, rfl, rfl, rfl, rfl, ?_⟩
  · exact .inl rfl
  · exact .inl rfl
  · exact .inl rfl
  · exact .inr rfl

theorem admitted_disk (ha : Admitted s) (hs : step start s .disk = some s') : Admitted s' := by
  simp only [step] at hs
  split at hs
  · cases hs
  · split at hs
    · cases hs
    · rename_i op rest htodo
      cases hs
      obtain ⟨hops, hout, hpan, hmode, hcom, hlh⟩ := exec_fields start op s
      -- something is queued, so a commit runs and no operation is open
      have hc : s.committing = true := by
        cases hc : s.committing with
        | true => rfl
        | false =>
          rw [ha.todoNil hc] at htodo
          cases htodo
      have h0 := ha.outZero hc
      have hlh' : (op.exec start s).lh.Nodup ∧ (op.exec start s).lh.length ≤ logBlocks := by
        rcases hlh with hlh | hlh <;> rw [hlh]
        · exact ⟨ha.nodup, ha.len⟩
        · exact ⟨List.nodup_nil, Nat.zero_le _⟩
      refine ⟨hmode.trans ha.up, hpan.trans ha.noPanic, hlh'.1, hlh'.2, ?_, fun _ => hout.trans h0,
        fun hcf => absurd (hc.symm.trans (hcom.symm.trans hcf)) (by decide)⟩
      refine Budget.of_idle ?_ (hout.trans h0) hlh'.2
      intro t
      show (op.exec start s).ops t = none
      rw [hops]
      exact ha.budget.no_ops h0 t

theorem admitted_step (ha : Admitted s) {e : Ev} (hbound : withinBudget s e = true)
    (hok : NotFullAbsorb s e) (hs : step start s e = some s') : Admitted s' := by
  cases e with
  | crash => exact absurd hok (by simp [NotFullAbsorb])
  | boot | initlogDone =>
    simp only [step, ha.up] at hs
    cases hs
  | disk => exact admitted_disk ha hs
  | beginOp t => exact admitted_beginOp ha hs
  | logWrite t b d => exact admitted_logWrite ha hbound hok hs
  | endOp t => exact admitted_endOp ha hs
  | commitDone =>
    simp only [step] at hs
    split at hs
    · rename_i hg
      cases hs
      exact ⟨ha.up, ha.noPanic, ha.nodup, ha.len, ha.budget.congr rfl rfl rfl, by simp, fun _ =>
        hg.2.2.2⟩
    · cases hs

/-- **Log space admission.** In every run between two crashes, with any number of operations of
    at most `maxOpBlocks` distinct blocks each, in which no block that is already in the log is
    logged again while the log is full: nothing panics, the log holds no block twice and at most
    `logBlocks` of them, and a commit runs only while no operation is outstanding. -/
theorem log_admission {s₀ : St} (h₀ : Fresh s₀) {tr : List Ev}
    (hr : Run (Where (fun s e => withinBudget s e ∧ NotFullAbsorb s e) (Fires (step start)))
      s₀ tr s) :
    s.panicked = none ∧ s.lh.Nodup ∧ s.lh.length ≤ logBlocks ∧
    (s.committing = true → s.outstanding = 0) := by
  have hlen : s₀.lh.length ≤ logBlocks := by
    rw [h₀.lh]
    exact Nat.zero_le _
  have h0 : Admitted s₀ :=
    { up := h₀.up
      noPanic := h₀.noPanic
      nodup := by rw [h₀.lh]; exact List.nodup_nil
      len := hlen
      budget := .of_idle h₀.ops h₀.outstanding hlen
      outZero := fun _ => h₀.outstanding
      todoNil := fun _ => h₀.todo }
  have ha : Admitted s := hr.inv_state h0 (fun s e s' ha hs => admitted_step ha hs.1.1 hs.1.2 hs.2)
  exact ⟨ha.noPanic, ha.nodup, ha.len, ha.outZero⟩

/-- The machine as `initlog` leaves it on an empty disk. -/
def started : St := { powerOff (fun _ _ => 0) with mode := .up }

theorem started_fresh : Fresh started := ⟨rfl, rfl, rfl, rfl, fun _ => rfl, rfl, rfl⟩

/-- Three operations, of which operation `t` logs the ten blocks from `50 + 10 * t` on. -/
def fullLogRun : List Ev :=
  [.beginOp 0, .beginOp 1, .beginOp 2] ++
    (List.range 30).map fun i => .logWrite (i / 10) (50 + i) (fun _ => i)

/-- The steps of `fullLogRun` meet the condition: new blocks fill the log to the last entry. -/
theorem log_admission_fullLogRun :
    ∃ s, exec (guarded (fun s e => withinBudget s e ∧ NotFullAbsorb s e) (step 2)) started
        fullLogRun = some s ∧
      s.lh.length = logBlocks ∧ s.panicked = none ∧ s.lh.Nodup ∧ s.lh.length ≤ logBlocks ∧
      (s.committing = true → s.outstanding = 0) := by
  obtain ⟨s, hx, hfull⟩ : ∃ s, exec (guarded (fun s e => withinBudget s e ∧ NotFullAbsorb s e)
      (step 2)) started fullLogRun = some s ∧ s.lh.length = logBlocks := ⟨_, rfl, rfl⟩
  exact ⟨s, hx, hfull, log_admission started_fresh (run_where_of_exec hx)⟩

/-- One more `log_write` of a block that operation 0 has already logged. -/
theorem log_write_full_panics :
    ∃ s s', Run (Where (fun s e => withinBudget s e) (Fires (step 2))) started fullLogRun s ∧
      s.panicked = none ∧ 50 ∈ s.lh ∧ withinBudget s (.logWrite 0 50 fun _ => 0) ∧
      step 2 s (.logWrite 0 50 fun _ => 0) = some s' ∧
      s'.panicked = some .tooBigATransaction := by
  obtain ⟨s, s', hx, hp, hmem, hbound, hs, hp'⟩ : ∃ s s',
      exec (guarded (fun s e => withinBudget s e = true) (step 2)) started fullLogRun = some s ∧
        s.panicked = none ∧ 50 ∈ s.lh ∧ withinBudget s (.logWrite 0 50 fun _ => 0) ∧
        step 2 s (.logWrite 0 50 fun _ => 0) = some s' ∧
        s'.panicked = some .tooBigATransaction := ⟨_, _, rfl, rfl, by decide, by decide, rfl, rfl⟩
  exact ⟨s, s', run_where_of_exec hx, hp, hmem, hbound, hs, hp'⟩

end Xv6.Log
