/-
  What a position determines, and what one step does to it.

  A thread's position determines the locks that it holds, whether its process is alive, the slot
  that a fork is filling, the children that `kexit` has given away and the child that `kwait` has
  seen. `Edge` is the flow graph of `edge` as a relation; the lemmas below read it, and later
  proofs use them and the operation of a step.
-/
import Xv6.Family.Model

namespace Xv6.Family

open Lib
open Process (ProcState nextPid)

variable {n : ℕ}

/-! ## Positions -/

/-- The slots whose parent has been looked at when `kexit` goes on. -/
def After.swept (j : Fin n) : After → Prop
  | .reparent k => j < k
  | .lock => True

namespace Pc

/-- The thread holds `wait_lock`. -/
def waits : Pc n → Bool
  | forkLink _ | forkLinked _ | reparent _ _ | wake _ _ _ _ | wakeIn _ _ _ _ | wakeOut _ _ _ _
  | exitLock _ | exitSet _ | exitRelease | waitScan _ _ | waitChild _ | waitLook _ | waitKeep _
  | waitBad _ | waitFreed _ _ | waitKilled | waitSeen | waitDone _ | rest .wait
  | restIn .wait => true
  | _ => false

/-- The process lock that the thread of slot `p` holds. -/
def lock (p : Fin n) : Pc n → Option (Fin n)
  | forkLook i | forkNext i | forkMade i | forkFail i | forkCopied i | forkRun i | forkDone i
  | wakeIn _ _ i _ | wakeOut _ _ i _ | waitLook i | waitKeep i | waitBad i | waitFreed i _ => some i
  | exitSet _ | exitRelease | exitSched | waitSeen | restIn _ | restOut _ | restSet _ | back _
  | backOut _ => some p
  | _ => none

/-- The process of the thread has not exited. -/
def live : Pc n → Prop
  | gone | exitRelease | exitSched => False
  | _ => True

/-- The slot that a fork has taken and not yet made runnable. -/
def child : Pc n → Option (Fin n)
  | forkMade i | forkCopied i | forkWait i | forkLink i | forkLinked i | forkLock i
  | forkRun i => some i
  | _ => none

/-- The slot that a fork has taken and whose parent it has not yet set. -/
def window : Pc n → Option (Fin n)
  | forkMade i | forkCopied i | forkWait i | forkLink i => some i
  | _ => none

/-- `kexit` has seen to it that slot `j` is no child any more. -/
def swept (j : Fin n) : Pc n → Prop
  | reparent _ k => j < k
  | wake _ _ _ a | wakeIn _ _ _ a | wakeOut _ _ _ a => a.swept j
  | exitLock _ | exitSet _ => True
  | _ => False

/-- The child that `kwait` has seen. -/
def watched : Pc n → Option (Fin n)
  | waitChild k | waitLook k => some k
  | _ => none

/-- In `kexit`. -/
def exits : Pc n → Prop
  | exitWait _ | reparent _ _ | wake _ _ _ _ | wakeIn _ _ _ _ | wakeOut _ _ _ _
  | exitLock _ | exitSet _
  | exitRelease | exitSched => True
  | _ => False

theorem child_of_window {pc : Pc n} {i : Fin n} (h : pc.window = some i) : pc.child = some i := by
  cases pc <;> first | exact h | cases h

/-- A thread that is not alive has given up the CPU, or holds its own lock. -/
theorem gone_of_not_live {pc : Pc n} {p : Fin n} (h : ¬pc.live) (hl : pc.lock p ≠ some p) :
    pc = gone := by
  cases pc with
  | gone => rfl
  | exitRelease | exitSched => exact absurd rfl hl
  | _ => exact absurd trivial h

end Pc

/-! ## Edges -/

/-- The steps of thread `p`. -/
inductive Edge (init : Fin n) (t : Table n) (p : Fin n) : Pc n → Op n → Pc n → Prop
  | fork : Edge init t p .free .skip (.forkScan 0)
  | exit (st) (h : p ≠ init) : Edge init t p .free .skip (.exitWait st)
  | wait : Edge init t p .free .skip .waitStart
  | yield : Edge init t p .free .skip (.rest .yield)
  | sleep : Edge init t p .free .skip (.rest .sleep)
  | forkScan (i : Fin n) : Edge init t p (.forkScan i) (.lock i) (.forkLook i)
  | forkFull (i) : Edge init t p (.forkScan i) .skip .free
  | forkTake (i) (h : (t.proc i).state = .unused) : Edge init t p (.forkLook i) (.take i)
      (.forkMade i)
  | forkBusy (i) : Edge init t p (.forkLook i) .skip (.forkNext i)
  | forkNext (i) : Edge init t p (.forkNext i) (.unlock i) (.forkScan (i + 1))
  | forkDrop (i) : Edge init t p (.forkMade i) (.drop i) (.forkFail i)
  | forkFail (i) : Edge init t p (.forkFail i) (.unlock i) .free
  | forkCopy (i) : Edge init t p (.forkMade i) .skip (.forkCopied i)
  | forkRelease (i) : Edge init t p (.forkCopied i) (.unlock i) (.forkWait i)
  | forkWait (i) : Edge init t p (.forkWait i) .waitAcquire (.forkLink i)
  | forkLink (i) : Edge init t p (.forkLink i) (.link i) (.forkLinked i)
  | forkLinked (i) : Edge init t p (.forkLinked i) .waitRelease (.forkLock i)
  | forkLock (i) : Edge init t p (.forkLock i) (.lock i) (.forkRun i)
  | forkRun (i) : Edge init t p (.forkRun i) (.start i) (.forkDone i)
  | forkDone (i) : Edge init t p (.forkDone i) (.unlock i) .free
  | exitWait (st) : Edge init t p (.exitWait st) .waitAcquire (.reparent st 0)
  | adopt (st) (k : Fin n) (h : (t.proc k).parent = some p) :
      Edge init t p (.reparent st k) (.adopt k) (.wake st (some init) 0 (.reparent (k + 1)))
  | notChild (st) (k : Fin n) (h : (t.proc k).parent ≠ some p) :
      Edge init t p (.reparent st k) .skip (.reparent st (k + 1))
  | reparented (st) (k : ℕ) (h : n ≤ k) :
      Edge init t p (.reparent st k) .skip (.wake st (t.proc p).parent 0 .lock)
  | wakeSelf (st c i a) : Edge init t p (.wake st c i a) .skip (.wake st c (i + 1) a)
  | wakeLock (st c) (i : Fin n) (a) : Edge init t p (.wake st c i a) (.lock i) (.wakeIn st c i a)
  | wakeEnd (st c i a) : Edge init t p (.wake st c i a) .skip (a.pc st)
  | wakeIn (st c i a) : Edge init t p (.wakeIn st c i a) (.wake c i) (.wakeOut st c i a)
  | wakeOut (st c a) (i : Fin n) : Edge init t p (.wakeOut st c i a) (.unlock i)
      (.wake st c (i + 1) a)
  | exitLock (st) : Edge init t p (.exitLock st) (.lock p) (.exitSet st)
  | exitSet (st) : Edge init t p (.exitSet st) (.zombie st) .exitRelease
  | exitRelease : Edge init t p .exitRelease .waitRelease .exitSched
  | exitSched : Edge init t p .exitSched (.unlock p) .gone
  | waitStart : Edge init t p .waitStart .waitAcquire (.waitScan 0 false)
  | waitSee (k : Fin n) (b) (h : (t.proc k).parent = some p) :
      Edge init t p (.waitScan k b) .skip (.waitChild k)
  | waitNext (k b) : Edge init t p (.waitScan k b) .skip (.waitScan (k + 1) b)
  | waitKids (k) : Edge init t p (.waitScan k true) .skip .waitKilled
  | waitNone (k) : Edge init t p (.waitScan k false) .skip (.waitDone none)
  | waitChild (k) : Edge init t p (.waitChild k) (.lock k) (.waitLook k)
  | waitCollect (k) (h : (t.proc k).state = .zombie) :
      Edge init t p (.waitLook k) (.collect k) (.waitFreed k (t.proc k).report)
  | waitAlive (k) : Edge init t p (.waitLook k) .skip (.waitKeep k)
  | waitCopy (k) : Edge init t p (.waitLook k) .skip (.waitBad k)
  | waitKeep (k : Fin n) : Edge init t p (.waitKeep k) (.unlock k) (.waitScan (k + 1) true)
  | waitBad (k) : Edge init t p (.waitBad k) (.unlock k) (.waitDone none)
  | waitFreed (k r) : Edge init t p (.waitFreed k r) (.unlock k) (.waitDone (some r))
  | waitKilled : Edge init t p .waitKilled (.lock p) .waitSeen
  | waitStop : Edge init t p .waitSeen (.unlock p) (.waitDone none)
  | waitSleep : Edge init t p .waitSeen (.unlock p) (.rest .wait)
  | waitDone (r) : Edge init t p (.waitDone r) (.ret r) .free
  | rest (m) : Edge init t p (.rest m) (.lock p) (.restIn m)
  | restWait : Edge init t p (.restIn .wait) .waitRelease (.restOut .wait)
  | restIn (m) (h : m ≠ .wait) : Edge init t p (.restIn m) .skip (.restOut m)
  | restOut (m) : Edge init t p (.restOut m) (.rest m) (.restSet m)
  | restSet (m) : Edge init t p (.restSet m) (.unlock p) (.away m)
  | back (m) : Edge init t p (.back m) .tidy (.backOut m)
  | backWait : Edge init t p (.backOut .wait) (.unlock p) .waitStart
  | backFree (m) (h : m ≠ .wait) : Edge init t p (.backOut m) (.unlock p) .free

variable {init : Fin n} {t : Table n} {p : Fin n} {pc pc' : Pc n} {c : Choice} {op : Op n}

/-- `Edge` has every step of `edge`. -/
theorem Edge.of_edge (h : edge init t p pc c = some (op, pc')) : Edge init t p pc op pc' := by
  unfold edge at h
  split at h
  -- the rows without a test
  all_goals try (cases h; constructor; done)
  · split at h
    · cases h
    · rename_i hp
      cases h
      exact .exit _ hp
  · split at h
    · rename_i i hi
      cases h
      exact .forkScan ⟨i, hi⟩
    · cases h
      exact .forkFull _
  · split at h
    · rename_i hs
      cases h
      exact .forkTake _ hs
    · cases h
      exact .forkBusy _
  · split at h
    · rename_i st k hk
      split at h
      · rename_i hpar
        cases h
        exact .adopt st ⟨k, hk⟩ hpar
      · rename_i hpar
        cases h
        exact .notChild st ⟨k, hk⟩ hpar
    · rename_i hk
      cases h
      exact .reparented _ _ (Nat.le_of_not_lt hk)
  · split at h
    · rename_i st c i a hi
      split at h
      · cases h
        exact .wakeSelf st c i a
      · cases h
        exact .wakeLock st c ⟨i, hi⟩ a
    · cases h
      exact .wakeEnd ..
  · split at h
    · rename_i k b hk
      split at h
      · rename_i hpar
        cases h
        exact .waitSee ⟨k, hk⟩ b hpar
      · cases h
        exact .waitNext k b
    · split at h
      · rename_i hb
        cases h
        rw [hb]
        exact .waitKids _
      · rename_i hb
        cases h
        rw [Bool.eq_false_iff.mpr hb]
        exact .waitNone _
  · split at h
    · rename_i hz
      cases h
      exact .waitCollect _ hz
    · cases h
      exact .waitAlive _
  · split at h
    · cases h
      exact .waitCopy _
    · cases h
  · cases h
    split
    · exact .waitStop
    · exact .waitSleep
  · rename_i m hm
    cases h
    exact .restIn m fun h => hm h
  · cases h
    split
    · rename_i hm
      rw [hm]
      exact .backWait
    · rename_i hm
      exact .backFree _ hm
  · cases h

namespace Edge

/-- Operations that change no process lock. -/
def Plain : Op n → Prop
  | .lock _ | .unlock _ => False
  | _ => True

theorem lock_of_lock {i : Fin n} (he : Edge init t p pc (.lock i) pc') :
    pc.lock p = none ∧ pc'.lock p = some i := by
  cases he <;> exact ⟨rfl, rfl⟩

theorem lock_of_unlock {i : Fin n} (he : Edge init t p pc (.unlock i) pc') :
    pc.lock p = some i ∧ pc'.lock p = none := by
  cases he <;> exact ⟨rfl, rfl⟩

theorem lock_of_plain (he : Edge init t p pc op pc') (hop : Plain op) : pc'.lock p = pc.lock p := by
  cases he with
  | wakeEnd st c i a => cases a <;> rfl
  | _ => first | rfl | exact hop.elim

theorem waits_of_acquire (he : Edge init t p pc .waitAcquire pc') :
    pc.waits = false ∧ pc'.waits = true := by
  cases he <;> exact ⟨rfl, rfl⟩

theorem waits_of_release (he : Edge init t p pc .waitRelease pc') :
    pc.waits = true ∧ pc'.waits = false := by
  cases he <;> exact ⟨rfl, rfl⟩

theorem waits_of_ret {r : Option Report} (he : Edge init t p pc (.ret r) pc') :
    pc = .waitDone r ∧ pc' = .free := by
  cases he
  exact ⟨rfl, rfl⟩

theorem waits_of_else (he : Edge init t p pc op pc') (h1 : op ≠ .waitAcquire)
    (h2 : op ≠ .waitRelease)
    (h3 : ∀ r, op ≠ .ret r) : pc'.waits = pc.waits := by
  cases he with
  | wakeEnd st c i a => cases a <;> rfl
  | exitWait | waitStart | forkWait => exact absurd rfl h1
  | forkLinked | exitRelease | restWait => exact absurd rfl h2
  | waitDone r => exact absurd rfl (h3 r)
  | restIn m hm | backFree m hm => cases m <;> first | rfl | exact absurd rfl hm
  | rest m | restOut m | restSet m | back m => cases m <;> rfl
  | _ => rfl

/-- Operations that leave who is whose child, and who is alive, as it is. -/
def Mild : Op n → Prop
  | .take _ | .drop _ | .link _ | .adopt _ | .zombie _ | .collect _ => False
  | _ => True

section

variable (he : Edge init t p pc op pc')

include he

theorem live_of_mild (hop : Mild op) : pc'.live ↔ pc.live := by
  cases he with
  | wakeEnd st c i a => cases a <;> rfl
  | _ => first | rfl | exact hop.elim

theorem window_of_mild (hop : Mild op) : pc'.window = pc.window := by
  cases he with
  | wakeEnd st c i a => cases a <;> rfl
  | _ => first | rfl | exact hop.elim

/-- A fork is done with a slot once it has made it runnable. -/
theorem child_of_mild (hop : Mild op) :
    pc'.child = pc.child ∨ ∃ i, op = .start i ∧ pc.child = some i ∧ pc'.child = none := by
  cases he with
  | wakeEnd st c i a => exact .inl (by cases a <;> rfl)
  | forkRun i => exact .inr ⟨i, rfl, rfl, rfl⟩
  | _ => first | exact .inl rfl | exact hop.elim

theorem swept_of_mild (hop : Mild op) {j : Fin n} (hj : pc'.swept j) :
    pc.swept j ∨ (t.proc j).parent ≠ some p := by
  cases he with
  | wakeEnd st c i a => cases a <;> exact .inl hj
  | exitWait st => exact absurd hj (Nat.not_lt_zero _)
  | notChild st k hk =>
    rcases Nat.lt_or_eq_of_le (Nat.le_of_lt_succ hj) with hlt | heq
    · exact .inl hlt
    · rw [Fin.ext heq]
      exact .inr hk
  | reparented st k hk => exact .inl (Nat.lt_of_lt_of_le j.isLt hk)
  | _ => first | exact .inl hj | exact hj.elim | exact hop.elim

theorem watched {k : Fin n} (hk : pc'.watched = some k) :
    pc.watched = some k ∨ (t.proc k).parent = some p := by
  cases he with
  | wakeEnd st c i a => cases a <;> cases hk
  | waitSee k b h =>
    cases hk
    exact .inr h
  | waitChild k => exact .inl hk
  | _ => cases hk

theorem exits (h : pc'.exits) : pc.exits ∨ p ≠ init := by
  cases he with
  | wakeEnd st c i a => exact .inl trivial
  | exit st hp => exact .inr hp
  | _ => first | exact .inl trivial | exact h.elim

/-- Threads that have given up the CPU do not move. -/
theorem not_away : pc ≠ .gone ∧ ∀ m, pc ≠ .away m := by
  cases he <;> exact ⟨nofun, fun m h => nomatch h⟩

end

end Edge

end Xv6.Family
