/-
  Crash atomicity of the redo log.

  A run is any sequence of operations, disk writes, crashes and restarts in which no block of
  the log area is logged (`HomeWrites`), from a machine without power whose disk `d₀` has a
  well-formed log header (an empty one, as `mkfs` leaves it, or one left by an earlier crash).
  `crash_atomicity`: whenever `initlog` completes, the home blocks hold exactly the transactions
  whose `write_head` has completed, in order, over the contents that `d₀` recovers to. A transaction
  that was open or still being copied to the log when the power went is absent. At the commit point
  no operation is open, so a transaction consists of whole operations.
-/
import Xv6.Log.Invariant

namespace Xv6.Log

open Xv6.Lib

variable {start : Nat} {d₀ : Nat → Block} {s : St} {h : Hist}

/-- With the header clear the home blocks are the committed contents. -/
theorem Inv.home_of_head_nil (hi : Inv start d₀ s h) (hhead : diskHead start s = []) {b : Nat}
    (hb : Home start b) : s.disk b = reference start d₀ h b :=
  hi.redoHome b hb (by rw [hhead]; simp)

theorem Inv.home_of_initlogDone (hi : Inv start d₀ s h) {s' : St}
    (hs : step start s .initlogDone = some s') {b : Nat} (hb : Home start b) :
    s'.disk b = reference start d₀ h b := by
  simp only [step] at hs
  split at hs
  · rename_i hg
    cases hs
    have hm : s.mode ≠ .off := by rw [hg.1]; decide
    have hp : s.panicked = none := hi.noPanic (by rw [hg.1]; decide)
    obtain ⟨hhead, _⟩ := (hi.live hm hp).stage.todo_nil hg.2
    exact hi.home_of_head_nil hhead hb
  · cases hs

/-- While `write_head` is the next disk write, no operation is between begin and end. -/
theorem Inv.no_op_at_commit (hi : Inv start d₀ s h) (hp : s.panicked = none)
    (hw : s.todo.head? = some .writeHead) (t : Nat) : s.ops t = none := by
  by_cases hup : s.mode = .up
  · have hl := hi.live (by rw [hup]; decide) hp
    have hc : s.committing = true := by
      cases hc : s.committing with
      | true => rfl
      | false =>
        rw [hl.todoNil hup hc] at hw
        cases hw
    obtain ⟨A, hA, hcard⟩ := hl.count
    have h0 : A.card = 0 := by
      have := hl.outZero hc
      omega
    by_contra hne
    have hmem := (hA t).mpr hne
    rw [Finset.card_eq_zero.mp h0] at hmem
    simp at hmem
  · exact hi.opsOff hup t

/-- **Crash atomicity.** After any run, with any crashes in it, a completed `initlog` leaves
    in every home block the contents that the transactions with a completed `write_head`
    give, one after the other; and a transaction is committed only between operations. -/
theorem crash_atomicity (hd : BlocksWf start (readHead (d₀ start))) {tr : List Ev}
    (hr : Run (Where (fun _ e => HomeWrites start e) (Fires (stepH start)))
      (powerOff d₀, Hist.init) tr (s, h)) :
    (∀ s', step start s .initlogDone = some s' → ∀ b, Home start b →
      s'.disk b = applyAll h.committed (redo start d₀) b) ∧
    (s.panicked = none → s.todo.head? = some .writeHead → ∀ t, s.ops t = none) := by
  have hi : Inv start d₀ s h := inv_run hd hr
  refine ⟨?_, ?_⟩
  · intro s' hs b hb
    exact hi.home_of_initlogDone hs hb
  · intro hp hw t
    exact hi.no_op_at_commit hp hw t

/-- A run with a crash in the middle of `install_trans`: two blocks are logged and committed,
    the power goes after the first copy, and the next start copies both. -/
def crashRun : List Ev :=
  [.boot, .disk, .initlogDone, .beginOp 0, .logWrite 0 50 (fun _ => 7), .logWrite 0 51 (fun _ => 8),
    .endOp 0, .disk, .disk, .disk, .disk, .crash, .boot, .disk, .disk, .disk]

theorem crash_atomicity_crashRun :
    ∃ s h s', exec (guarded (fun _ e => HomeWrites 2 e) (stepH 2))
      (powerOff fun _ _ => 0, Hist.init)
        crashRun = some (s, h) ∧
      step 2 s .initlogDone = some s' ∧ h.committed.length = 1 ∧
      ∀ b, Home 2 b → s'.disk b = applyAll h.committed (redo 2 fun _ _ => 0) b := by
  have hd : BlocksWf 2 (readHead ((fun _ _ => 0 : Nat → Block) 2)) := BlocksWf.nil
  obtain ⟨s, h, s', hx, hs, hc⟩ : ∃ s h s',
      exec (guarded (fun _ e => HomeWrites 2 e) (stepH 2)) (powerOff fun _ _ => 0, Hist.init)
        crashRun = some (s, h) ∧
        step 2 s .initlogDone = some s' ∧ h.committed.length = 1 := ⟨_, _, _, rfl, rfl, rfl⟩
  exact ⟨s, h, s', hx, hs, hc, (crash_atomicity hd (run_where_of_exec hx)).1 s' hs⟩

end Xv6.Log
