/-
  What the log looks like on disk and in memory between any two steps (`Inv`), and that every
  step keeps it (`inv_step`).

  The disk header is empty until `write_head` commits and again after it is cleared. In
  between it names the logged blocks, and the log blocks hold their contents. `Stage` says
  how far `write_log` or `install_trans` has come. A crash forgets everything but the disk, so
  the two clauses about the disk alone (`head` and `redo`) are the ones that carry a run
  through crashes: copying the log home, from any point on, gives the committed contents.

  The reference is `Hist`, an auxiliary variable: the writes of each transaction whose
  `write_head` has completed, and those of the transaction still open.
-/
import Xv6.Log.Model
import Xv6.Lib.Writes

namespace Xv6.Log

open Xv6.Lib Function List

variable (start : Nat)

/-- Outside the log area. -/
def Home (b : Nat) : Prop := b < start ∨ start + logBlocks < b

instance (b : Nat) : Decidable (Home start b) := inferInstanceAs (Decidable (_ ∨ _))

/-- No block of the log area is passed to `log_write`. -/
def HomeWrites : Ev → Prop
  | .logWrite _ b _ => Home start b
  | _ => True

instance (e : Ev) : Decidable (HomeWrites start e) :=
  match e with
  | .logWrite _ b _ => inferInstanceAs (Decidable (Home start b))
  | .beginOp _ | .endOp _ | .disk | .commitDone | .crash | .boot | .initlogDone => isTrue trivial

/-- The block numbers of a header: distinct, as many as the log has room for, outside it. -/
structure BlocksWf (l : List Nat) : Prop where
  nodup : l.Nodup
  len : l.length ≤ logBlocks
  home : ∀ b ∈ l, Home start b

/-- The header that `read_head` would find. -/
def diskHead (s : St) : List Nat := readHead (s.disk start)

/-- How far the disk writes in `todo` have come. -/
inductive Stage (s : St) : Prop
  | idle (hm : s.mode ≠ .off) (htodo : s.todo = []) (hhead : diskHead start s = [])
      (hlh : s.mode = .recovering → s.lh = [])
      (hclean : ∀ b, b ∉ s.lh → bread s b = s.disk b)
  | logging (t : Nat) (hm : s.mode = .up) (hc : s.committing = true) (ht : t ≤ s.lh.length)
      (htodo : s.todo = commitFrom s.lh.length t) (hhead : diskHead start s = [])
      (hclean : ∀ b, b ∉ s.lh → bread s b = s.disk b)
      (hdone : ∀ i, i < t → s.disk (start + i + 1) = bread s (s.lh.getD i 0))
  | installing (t : Nat) (hm : s.mode ≠ .off) (hc : s.mode = .up → s.committing = true)
      (ht : t ≤ s.lh.length) (htodo : s.todo = installFrom s.lh.length t)
      (hhead : diskHead start s = s.lh)
      (hclean : ∀ b, b ∉ s.lh.drop t → bread s b = s.disk b)
      (hdone : ∀ i, i < t → s.disk (s.lh.getD i 0) = s.disk (start + i + 1))

/-- `log.outstanding` counts the operations between `begin_op` and `end_op`. -/
def OpsCount (s : St) : Prop :=
  ∃ A : Finset Nat, (∀ t, t ∈ A ↔ s.ops t ≠ none) ∧ s.outstanding = A.card

/-- The invariant of the running machine. -/
structure Live (s : St) : Prop where
  lhWf : BlocksWf start s.lh
  stage : Stage start s
  /-- Nothing is queued outside a commit. -/
  todoNil : s.mode = .up → s.committing = false → s.todo = []
  outZero : s.committing = true → s.outstanding = 0
  count : OpsCount s

/-! ## The reference -/

/-- The writes of one transaction, oldest first. -/
abbrev Txn := List (Nat × Block)

structure Hist where
  /-- Transactions whose `write_head` has completed. -/
  committed : List Txn
  /-- What has been passed to `log_write` since. -/
  pending : Txn

def Hist.init : Hist := ⟨[], []⟩

def histStep (s : St) (h : Hist) : Ev → Hist
  | .logWrite _ b d => { h with pending := h.pending ++ [(b, d)] }
  | .disk => if s.todo.head? = some .writeHead then ⟨h.committed ++ [h.pending], []⟩ else h
  | .crash => { h with pending := [] }
  | _ => h

/-- A step of the machine with its history. -/
def stepH (p : St × Hist) (e : Ev) : Option (St × Hist) :=
  (step start p.1 e).map fun s' => (s', histStep p.1 p.2 e)

/-- The home blocks of a disk after its log has been copied home. -/
def redo (d : Nat → Block) (b : Nat) : Block :=
  if b ∈ readHead (d start) then d (start + (readHead (d start)).idxOf b + 1) else d b

/-- The contents that the committed transactions give, from the disk `d₀`. -/
def reference (d₀ : Nat → Block) (h : Hist) : Nat → Block := applyAll h.committed (redo start d₀)

/-- The invariant of every reachable state, over the first disk `d₀`. -/
structure Inv (d₀ : Nat → Block) (s : St) (h : Hist) : Prop where
  head : BlocksWf start (diskHead start s)
  /-- The log blocks that the header names hold the committed contents. -/
  redoLog : ∀ i, i < (diskHead start s).length →
    s.disk (start + i + 1) = reference start d₀ h ((diskHead start s).getD i 0)
  /-- So does every home block that it does not name. -/
  redoHome : ∀ b, Home start b → b ∉ diskHead start s → s.disk b = reference start d₀ h b
  live : s.mode ≠ .off → s.panicked = none → Live start s
  /-- The buffers hold the committed contents overwritten by the open transaction. -/
  view : s.mode = .up → s.panicked = none → ∀ b, Home start b →
    bread s b = applyWrites h.pending (reference start d₀ h) b
  pendLogged : s.panicked = none → ∀ b ∈ h.pending.map Prod.fst, b ∈ s.lh
  /-- Once the header names the transaction nothing of it is pending. -/
  pendHead : s.panicked = none → diskHead start s ≠ [] → h.pending = []
  pendNil : s.mode ≠ .up → h.pending = []
  noPanic : s.mode ≠ .up → s.panicked = none
  opsOff : s.mode ≠ .up → ∀ t, s.ops t = none

variable {start}

theorem readHead_headerBlock (lh : List Nat) (hb : Block) : readHead (headerBlock lh hb) = lh := by
  have h0 : headerBlock lh hb 0 = lh.length := by simp [headerBlock]
  unfold readHead
  rw [h0]
  apply ext_getElem
  · simp
  · intro i h1 h2
    simp [headerBlock, h2]

variable {t b : Nat} {l : List Nat} {s' : St}

theorem home_ne_log (hb : Home start b) {i : Nat} (hi : i < logBlocks) : b ≠ start + i + 1 := by
  unfold Home at hb
  omega

theorem home_ne_start (hb : Home start b) : b ≠ start := by
  unfold Home at hb
  omega

theorem BlocksWf.nil : BlocksWf start [] :=
  ⟨nodup_nil, by simp, by simp⟩

theorem BlocksWf.getD_home (h : BlocksWf start l) {i : Nat} (hi : i < l.length) :
    Home start (l.getD i 0) := by
  apply h.home
  rw [getD_eq_getElem _ _ hi]
  exact getElem_mem hi

/-- The log area is no home block, so no logged block number lies in it. -/
theorem BlocksWf.log_not_mem (h : BlocksWf start l) {i : Nat} (hi : i ≤ logBlocks) :
    start + i ∉ l := by
  intro hm
  have := h.home _ hm
  unfold Home at this
  omega

theorem nodup_absorb (hn : l.Nodup) : (absorb b l).Nodup := by
  rw [absorb_eq]
  split
  · exact hn
  · rename_i hnot
    rw [nodup_append]
    refine ⟨hn, by simp, ?_⟩
    intro x hx y hy
    rw [List.mem_singleton.mp hy]
    exact fun he => hnot (he ▸ hx)

theorem BlocksWf.absorb (h : BlocksWf start l) (hb : Home start b)
    (hl : l.length < logBlocks) : BlocksWf start (absorb b l) := by
  have hnd := nodup_absorb (b := b) h.nodup
  rw [absorb_eq] at hnd ⊢
  split at hnd
  · rename_i hmem
    rw [if_pos hmem]
    exact h
  · rename_i hmem
    rw [if_neg hmem]
    refine ⟨hnd, by simpa using hl, ?_⟩
    · intro x hx
      rcases List.mem_append.mp hx with hx | hx
      · exact h.home x hx
      · rw [List.mem_singleton.mp hx]
        exact hb

/-! ## One disk write -/

theorem commitFrom_lt {n : Nat} (h : t < n) :
    commitFrom n t = .writeLog t :: commitFrom n (t + 1) := by
  unfold commitFrom
  obtain ⟨k, hk⟩ : ∃ k, n - t = k + 1 := ⟨n - t - 1, by omega⟩
  have hk' : n - (t + 1) = k := by omega
  rw [hk, hk', List.range'_succ]
  rfl

theorem commitFrom_eq (n : Nat) : commitFrom n n = .writeHead :: installFrom n 0 := by
  simp [commitFrom]

theorem installFrom_lt {n : Nat} (h : t < n) :
    installFrom n t = .install t :: installFrom n (t + 1) := by
  unfold installFrom
  obtain ⟨k, hk⟩ : ∃ k, n - t = k + 1 := ⟨n - t - 1, by omega⟩
  have hk' : n - (t + 1) = k := by omega
  rw [hk, hk', List.range'_succ]
  rfl

theorem installFrom_eq (n : Nat) : installFrom n n = [.clearHead] := by
  simp [installFrom]

/-- A buffer is changed and written: the disk and the buffer then agree on it, and nothing
    else has changed. -/
theorem bread_put (s : St) (a b : Nat) (d : Block) :
    bread (bwrite (setBuf s b d) b) a = if a = b then d else bread s a := by
  rw [bread_bwrite]
  split
  · rename_i h
    rw [h, bread_setBuf_same]
  · rename_i h
    exact bread_setBuf_ne s d h

theorem disk_put (s : St) (a b : Nat) (d : Block) :
    (bwrite (setBuf s b d) b).disk a = if a = b then d else s.disk a := by
  by_cases h : a = b
  · subst h
    simp [bwrite]
  · simp [bwrite, setBuf, h]

/-! ## Power -/

variable {d₀ : Nat → Block} {s : St} {h : Hist}

/-- A crash keeps the disk, which is all the invariant needs. -/
theorem inv_crash (hi : Inv start d₀ s h) :
    Inv start d₀ (powerOff s.disk) { h with pending := [] } where
  head := hi.head
  redoLog := hi.redoLog
  redoHome := hi.redoHome
  live := fun hm => absurd rfl hm
  view := nofun
  pendLogged := by simp
  pendHead := fun _ _ => rfl
  pendNil := fun _ => rfl
  noPanic := fun _ => rfl
  opsOff := fun _ _ => rfl

/-- `recover_from_log` starts with the header that is on the disk and nothing in the cache. -/
theorem inv_boot (hi : Inv start d₀ s h) (hm : s.mode = .off) : Inv start d₀ { powerOff s.disk with
      lh := diskHead start s, todo := recoverFromLog (diskHead start s).length,
      mode := .recovering } h where
  head := hi.head
  redoLog := hi.redoLog
  redoHome := hi.redoHome
  live := fun _ _ =>
    { lhWf := hi.head
      stage := .installing 0 (by simp) nofun (Nat.zero_le _) rfl rfl
        (fun _ _ => rfl) (fun i hi => absurd hi (Nat.not_lt_zero i))
      todoNil := nofun
      outZero := nofun
      count := ⟨∅, by simp [powerOff], rfl⟩ }
  view := nofun
  pendLogged := by
    rw [hi.pendNil (by rw [hm]; decide)]
    simp
  pendHead := fun _ _ => hi.pendNil (by rw [hm]; decide)
  pendNil := fun _ => hi.pendNil (by rw [hm]; decide)
  noPanic := fun _ => rfl
  opsOff := fun _ _ => rfl

theorem Stage.todo_nil (hs : Stage start s) (ht : s.todo = []) :
    diskHead start s = [] ∧ (s.mode = .recovering → s.lh = []) ∧ ∀ b, b ∉ s.lh →
    bread s b = s.disk b := by
  cases hs with
  | idle _ _ hhead hlh hclean => exact ⟨hhead, hlh, hclean⟩
  | logging t _ _ _ htodo => simp [ht, commitFrom] at htodo
  | installing t _ _ _ htodo => simp [ht, installFrom] at htodo

/-- `initlog` returns: the header is clear, so the home blocks are the committed contents. -/
theorem inv_initlogDone (hi : Inv start d₀ s h) (hm : s.mode = .recovering) (ht : s.todo = [])
    (hp : s.panicked = none) : Inv start d₀ { s with mode := .up } h := by
  have hl := hi.live (by rw [hm]; decide) hp
  obtain ⟨hhead, hlh, hclean⟩ := hl.stage.todo_nil ht
  have hlh := hlh hm
  have hpend := hi.pendNil (by rw [hm]; decide)
  exact
    { head := hi.head
      redoLog := hi.redoLog
      redoHome := hi.redoHome
      live := fun _ _ =>
        { lhWf := hl.lhWf
          stage := .idle (by simp) ht hhead (fun _ => hlh) hclean
          todoNil := fun _ _ => ht
          outZero := hl.outZero
          count := hl.count }
      view := by
        intro _ _ b hb
        have hnot : b ∉ diskHead start s := by rw [hhead]; simp
        rw [hpend, applyWrites_nil, ← hi.redoHome b hb hnot]
        exact hclean b (by rw [hlh]; simp)
      pendLogged := by rw [hpend]; simp
      pendHead := fun _ _ => hpend
      pendNil := fun h => absurd rfl h
      noPanic := fun h => absurd rfl h
      opsOff := fun h => absurd rfl h }

/-! ## The disk writes of a commit and of a recovery -/

/-- A disk write outside the header block keeps the header. -/
theorem diskHead_of_disk_start {s : St} (h : s'.disk start = s.disk start) :
    diskHead start s' = diskHead start s := by
  unfold diskHead
  rw [h]

section

variable (hi : Inv start d₀ s h) (hp : s.panicked = none)

include hi hp

/-- `write_log` copies one more block: the header is empty, so the log area is free. -/
theorem inv_writeLog (hm : s.mode = .up) (hc : s.committing = true) (ht : t < s.lh.length)
    (hhead : diskHead start s = []) (hclean : ∀ b, b ∉ s.lh → bread s b = s.disk b)
    (hdone : ∀ i, i < t → s.disk (start + i + 1) = bread s (s.lh.getD i 0)) :
    Inv start d₀ { writeLog start s t with todo := commitFrom s.lh.length (t + 1) } h := by
  have hl := hi.live (by rw [hm]; decide) hp
  have hlen := hl.lhWf.len
  have hbread : ∀ b, bread (writeLog start s t) b =
      if b = start + t + 1 then bread s (s.lh.getD t 0) else bread s b :=
    fun b => bread_put s b _ _
  have hdisk : ∀ b, (writeLog start s t).disk b =
      if b = start + t + 1 then bread s (s.lh.getD t 0) else s.disk b :=
    fun b => disk_put s b _ _
  have hhome : ∀ b, Home start b → b ≠ start + t + 1 := fun b hb => home_ne_log hb (by omega)
  have hstart : (writeLog start s t).disk start = s.disk start := by
    rw [hdisk, if_neg (by omega)]
  have hhead' : diskHead start { writeLog start s t with todo := commitFrom s.lh.length (t + 1) } =
      diskHead start s := diskHead_of_disk_start hstart
  refine ⟨?_, ?_, ?_, ?_, ?_, hi.pendLogged, ?_, hi.pendNil, hi.noPanic, hi.opsOff⟩
  · rw [hhead']
    exact hi.head
  · rw [hhead', hhead]
    intro i hlt
    exact absurd hlt (Nat.not_lt_zero i)
  · intro b hb _
    have h1 : (writeLog start s t).disk b = s.disk b := by rw [hdisk, if_neg (hhome b hb)]
    exact h1.trans (hi.redoHome b hb (by rw [hhead]; simp))
  · intro _ _
    refine ⟨hl.lhWf, .logging (t + 1) hm hc ht rfl (hhead'.trans hhead) ?_ ?_, ?_, hl.outZero,
      hl.count⟩
    · intro b hb
      show bread (writeLog start s t) b = (writeLog start s t).disk b
      rw [hbread, hdisk, hclean b hb]
    · intro i hlt
      show (writeLog start s t).disk (start + i + 1) = bread (writeLog start s t) (s.lh.getD i 0)
      have hgi := hhome _ (hl.lhWf.getD_home (show i < s.lh.length by omega))
      rw [hbread, hdisk, if_neg hgi]
      rcases Nat.lt_succ_iff_lt_or_eq.mp hlt with hlt | rfl
      · rw [if_neg (by omega)]
        exact hdone i hlt
      · rw [if_pos rfl]
    · intro _ hcf
      exact absurd (hc.symm.trans hcf) (by decide)
  · intro hm' hp' b hb
    show bread (writeLog start s t) b = _
    rw [hbread, if_neg (hhome b hb)]
    exact hi.view hm hp b hb
  · intro _ hne
    rw [hhead', hhead] at hne
    exact absurd rfl hne

/-- `write_head`, the commit point: the open transaction becomes the last committed one. -/
theorem inv_writeHead (hm : s.mode = .up) (hc : s.committing = true) (hhead : diskHead start s = [])
    (hclean : ∀ b, b ∉ s.lh → bread s b = s.disk b)
    (hdone : ∀ i, i < s.lh.length → s.disk (start + i + 1) = bread s (s.lh.getD i 0)) :
    Inv start d₀ { writeHead start s with todo := installFrom s.lh.length 0 }
      ⟨h.committed ++ [h.pending], []⟩ := by
  have hl := hi.live (by rw [hm]; decide) hp
  have hbread : ∀ b, bread (writeHead start s) b =
      if b = start then headerBlock s.lh (bread s start) else bread s b :=
    fun b => bread_put s b _ _
  have hdisk : ∀ b, (writeHead start s).disk b =
      if b = start then headerBlock s.lh (bread s start) else s.disk b :=
    fun b => disk_put s b _ _
  have hhead' : diskHead start { writeHead start s with todo := installFrom s.lh.length 0 } =
      s.lh := by
    show readHead ((writeHead start s).disk start) = s.lh
    rw [hdisk, if_pos rfl, readHead_headerBlock]
  have href : reference start d₀ ⟨h.committed ++ [h.pending], []⟩ =
      applyWrites h.pending (reference start d₀ h) := applyAll_snoc _ _ _
  refine ⟨?_, ?_, ?_, ?_, ?_, ?_, fun _ _ => rfl, fun _ => rfl, hi.noPanic, hi.opsOff⟩
  · rw [hhead']
    exact hl.lhWf
  · rw [hhead', href]
    intro i hlt
    rw [hdisk, if_neg (by omega), hdone i hlt]
    exact hi.view hm hp _ (hl.lhWf.getD_home hlt)
  · rw [hhead', href]
    intro b hb hnot
    show (writeHead start s).disk b = _
    -- a block that was not logged is not in the transaction
    have hkey : b ∉ h.pending.map Prod.fst := fun hk => hnot (hi.pendLogged hp b hk)
    rw [hdisk, if_neg (home_ne_start hb), applyWrites_of_not_mem hkey]
    exact hi.redoHome b hb (by rw [hhead]; simp)
  · intro _ _
    refine ⟨hl.lhWf, .installing 0 (by show s.mode ≠ _; rw [hm]; decide) (fun _ => hc)
      (Nat.zero_le _) rfl hhead' ?_ ?_, ?_, hl.outZero, hl.count⟩
    · intro b hb
      show bread (writeHead start s) b = (writeHead start s).disk b
      have hb : b ∉ s.lh.drop 0 := hb
      rw [drop_zero] at hb
      rw [hbread, hdisk, hclean b hb]
    · intro i hlt
      exact absurd hlt (Nat.not_lt_zero i)
    · intro _ hcf
      exact absurd (hc.symm.trans hcf) (by decide)
  · intro _ _ b hb
    show bread (writeHead start s) b = _
    rw [hbread, if_neg (home_ne_start hb), applyWrites_nil, href]
    exact hi.view hm hp b hb
  · intro _ b hb
    simp at hb

/-- `install_trans` copies one more block home. The header still names it, so the copy may be
    made any number of times. -/
theorem inv_install (hm : s.mode ≠ .off)
    (hc : s.mode = .up → s.committing = true) (ht : t < s.lh.length)
    (hhead : diskHead start s = s.lh) (hclean : ∀ b, b ∉ s.lh.drop t → bread s b = s.disk b)
    (hdone : ∀ i, i < t → s.disk (s.lh.getD i 0) = s.disk (start + i + 1)) :
    Inv start d₀ { installTrans start s t with todo := installFrom s.lh.length (t + 1) } h := by
  have hl := hi.live hm hp
  have hlen := hl.lhWf.len
  have hth : Home start (s.lh.getD t 0) := hl.lhWf.getD_home ht
  -- the log block is in the log area, so buffer and disk agree on it
  have hlog : ∀ i, i < s.lh.length → start + i + 1 ∉ s.lh.drop t := by
    intro i hlt hmem
    exact hl.lhWf.log_not_mem (show i + 1 ≤ logBlocks by omega) (mem_of_mem_drop hmem)
  have hval : bread s (start + t + 1) = s.disk (start + t + 1) := hclean _ (hlog t ht)
  have hbread : ∀ b, bread (installTrans start s t) b =
      if b = s.lh.getD t 0 then s.disk (start + t + 1) else bread s b := by
    intro b
    rw [← hval]
    exact bread_put s b _ _
  have hdisk : ∀ b, (installTrans start s t).disk b =
      if b = s.lh.getD t 0 then s.disk (start + t + 1) else s.disk b := by
    intro b
    rw [← hval]
    exact disk_put s b _ _
  have hdlog : ∀ i, i < s.lh.length →
      (installTrans start s t).disk (start + i + 1) = s.disk (start + i + 1) := by
    intro i hlt
    rw [hdisk, if_neg (home_ne_log hth (by omega)).symm]
  have hhead' : diskHead start { installTrans start s t with
      todo := installFrom s.lh.length (t + 1) } = diskHead start s := by
    refine diskHead_of_disk_start ?_
    rw [hdisk, if_neg (home_ne_start hth).symm]
  have hmemt : s.lh.getD t 0 ∈ s.lh := by
    rw [getD_eq_getElem _ _ ht]
    exact getElem_mem ht
  refine ⟨?_, ?_, ?_, ?_, ?_, hi.pendLogged, ?_, hi.pendNil, hi.noPanic, hi.opsOff⟩
  · rw [hhead']
    exact hi.head
  · rw [hhead']
    intro i hlt
    rw [hhead] at hlt
    exact (hdlog i hlt).trans (hi.redoLog i (by rw [hhead]; exact hlt))
  · rw [hhead']
    intro b hb hnot
    have hne : b ≠ s.lh.getD t 0 := fun he => hnot (by rw [hhead, he]; exact hmemt)
    have h1 : (installTrans start s t).disk b = s.disk b := by rw [hdisk, if_neg hne]
    exact h1.trans (hi.redoHome b hb hnot)
  · intro _ _
    refine ⟨hl.lhWf, .installing (t + 1) hm hc ht rfl (hhead'.trans hhead) ?_ ?_, ?_, hl.outZero,
      hl.count⟩
    · intro b hb
      show bread (installTrans start s t) b = (installTrans start s t).disk b
      rw [hbread, hdisk]
      by_cases he : b = s.lh.getD t 0
      · rw [if_pos he, if_pos he]
      · rw [if_neg he, if_neg he]
        apply hclean
        intro hmem
        rw [drop_eq_getElem_cons ht, mem_cons] at hmem
        rcases hmem with hmem | hmem
        · exact he (by rw [hmem, getD_eq_getElem _ _ ht])
        · exact hb hmem
    · intro i hlt
      show (installTrans start s t).disk (s.lh.getD i 0) = (installTrans start s t).disk
        (start + i + 1)
      rw [hdlog i (by show i < s.lh.length; omega), hdisk]
      rcases Nat.lt_succ_iff_lt_or_eq.mp hlt with hlt | rfl
      · split
        · rename_i he
          rw [← hdone i hlt, he]
          have : i = t := by
            rw [getD_eq_getElem _ _ ht, getD_eq_getElem _ _ (by omega)] at he
            exact (List.Nodup.getElem_inj_iff hl.lhWf.nodup).mp he
          omega
        · exact hdone i hlt
      · rw [if_pos rfl]
    · intro hup hcf
      exact absurd ((hc hup).symm.trans hcf) (by decide)
  · intro hup hp' b hb
    show bread (installTrans start s t) b = _
    rw [hbread]
    split
    · -- the copy is the committed contents, which is what the buffer held
      rename_i he
      have hpend : h.pending = [] := hi.pendHead hp (by
        rw [hhead]
        intro hnil
        rw [hnil] at ht
        exact absurd ht (Nat.not_lt_zero t))
      have hlog := hi.redoLog t (by rw [hhead]; exact ht)
      rw [hlog, hhead, hpend, applyWrites_nil, he]
    · exact hi.view hup hp b hb
  · intro _ hne
    rw [hhead'] at hne
    exact hi.pendHead hp hne

/-- The header is cleared when every block has been copied home. -/
theorem inv_clearHead (hm : s.mode ≠ .off) (hhead : diskHead start s = s.lh)
    (hclean : ∀ b, bread s b = s.disk b)
    (hdone : ∀ i, i < s.lh.length → s.disk (s.lh.getD i 0) = s.disk (start + i + 1)) :
    Inv start d₀ { writeHead start { s with lh := [] } with todo := [] } h := by
  have hl := hi.live hm hp
  have hbread : ∀ b, bread (writeHead start { s with lh := [] }) b =
      if b = start then headerBlock [] (bread s start) else bread s b :=
    fun b => bread_put { s with lh := [] } b _ _
  have hdisk : ∀ b, (writeHead start { s with lh := [] }).disk b =
      if b = start then headerBlock [] (bread s start) else s.disk b :=
    fun b => disk_put { s with lh := [] } b _ _
  have hhead' : diskHead start { writeHead start { s with lh := [] } with todo := [] } = [] := by
    show readHead ((writeHead start { s with lh := [] }).disk start) = []
    rw [hdisk, if_pos rfl, readHead_headerBlock]
  have hpend : h.pending = [] := by
    by_cases hnil : s.lh = []
    · have := hi.pendLogged hp
      rw [hnil] at this
      cases hpe : h.pending with
      | nil => rfl
      | cons w ws => exact absurd (this w.1 (by simp [hpe])) (by simp)
    · exact hi.pendHead hp (by rw [hhead]; exact hnil)
  have hrest : ∀ b, bread (writeHead start { s with lh := [] }) b =
      (writeHead start { s with lh := [] }).disk b := by
    intro b
    rw [hbread, hdisk, hclean b]
  have hall : ∀ b, Home start b → s.disk b = reference start d₀ h b := by
    intro b hb
    by_cases hmem : b ∈ s.lh
    · obtain ⟨i, hlt, rfl⟩ := getElem_of_mem hmem
      have h1 := hdone i hlt
      rw [getD_eq_getElem _ _ hlt] at h1
      rw [h1, hi.redoLog i (by rw [hhead]; exact hlt), hhead, getD_eq_getElem _ _ hlt]
    · exact hi.redoHome b hb (by rw [hhead]; exact hmem)
  refine ⟨?_, ?_, ?_, ?_, ?_, ?_, fun _ _ => hpend, hi.pendNil, hi.noPanic, hi.opsOff⟩
  · rw [hhead']
    exact .nil
  · rw [hhead']
    intro i hlt
    exact absurd hlt (Nat.not_lt_zero i)
  · intro b hb _
    rw [hdisk, if_neg (home_ne_start hb)]
    exact hall b hb
  · intro _ _
    exact ⟨.nil, .idle hm rfl hhead' (fun _ => rfl) (fun b _ => hrest b), fun _ _ => rfl,
      hl.outZero, hl.count⟩
  · intro _ _ b hb
    show bread (writeHead start { s with lh := [] }) b = _
    rw [hbread, if_neg (home_ne_start hb), hclean b, hpend, applyWrites_nil]
    exact hall b hb
  · rw [hpend]
    simp

end

/-- The next disk write, whichever it is. -/
theorem inv_disk (hi : Inv start d₀ s h) (hm : s.mode ≠ .off) (hp : s.panicked = none)
    {op : DiskOp} {rest : List DiskOp} (ht : s.todo = op :: rest) :
    Inv start d₀ { op.exec start s with todo := rest } (histStep s h .disk) := by
  have hl := hi.live hm hp
  cases hl.stage with
  | idle _ htodo => rw [htodo] at ht; cases ht
  | logging t hup hc hle htodo hhead hclean hdone =>
    rcases Nat.lt_or_eq_of_le hle with hlt | heq
    · rw [htodo, commitFrom_lt hlt] at ht
      cases ht
      have hh : histStep s h .disk = h := by
        simp [histStep, htodo, commitFrom_lt hlt]
      rw [hh]
      exact inv_writeLog hi hp hup hc hlt hhead hclean hdone
    · subst heq
      rw [htodo, commitFrom_eq] at ht
      cases ht
      have hh : histStep s h .disk = ⟨h.committed ++ [h.pending], []⟩ := by
        simp [histStep, htodo, commitFrom_eq]
      rw [hh]
      exact inv_writeHead hi hp hup hc hhead hclean hdone
  | installing t _ hc hle htodo hhead hclean hdone =>
    rcases Nat.lt_or_eq_of_le hle with hlt | heq
    · rw [htodo, installFrom_lt hlt] at ht
      cases ht
      have hh : histStep s h .disk = h := by
        simp [histStep, htodo, installFrom_lt hlt]
      rw [hh]
      exact inv_install hi hp hm hc hlt hhead hclean hdone
    · subst heq
      rw [htodo, installFrom_eq] at ht
      cases ht
      have hh : histStep s h .disk = h := by
        simp [histStep, htodo, installFrom_eq]
      rw [hh]
      exact inv_clearHead hi hp hm hhead (fun b => hclean b (by simp)) hdone

/-! ## The operations -/

/-- A step of an operation that touches neither the disk, the buffers nor the log header. -/
theorem inv_counters (hi : Inv start d₀ s h) (hup : s.mode = .up) (hp : s.panicked = none)
    (hdisk : s'.disk = s.disk) (hcache : s'.cache = s.cache) (hlh : s'.lh = s.lh)
    (hmode : s'.mode = s.mode) (hstage : s'.panicked = none → Stage start s')
    (htodo : s'.panicked = none → s'.committing = false → s'.todo = [])
    (hout : s'.panicked = none → s'.committing = true → s'.outstanding = 0)
    (hcount : s'.panicked = none → OpsCount s') : Inv start d₀ s' h := by
  have hl := hi.live (by rw [hup]; decide) hp
  have hhead : diskHead start s' = diskHead start s := diskHead_of_disk_start (by rw [hdisk])
  have hbread : ∀ b, bread s' b = bread s b := by
    intro b
    unfold bread
    rw [hdisk, hcache]
  have hup' : s'.mode = .up := hmode.trans hup
  refine ⟨?_, ?_, ?_, ?_, ?_, ?_, ?_, fun hne => absurd hup' hne, fun hne => absurd hup' hne,
    fun hne => absurd hup' hne⟩
  · rw [hhead]
    exact hi.head
  · rw [hhead, hdisk]
    exact hi.redoLog
  · rw [hhead, hdisk]
    exact hi.redoHome
  · intro _ hp'
    exact ⟨by rw [hlh]; exact hl.lhWf, hstage hp', fun _ => htodo hp', hout hp', hcount hp'⟩
  · intro _ _ b hb
    rw [hbread]
    exact hi.view hup hp b hb
  · intro _
    rw [hlh]
    exact hi.pendLogged hp
  · intro _
    rw [hhead]
    exact hi.pendHead hp

/-- The stage of a machine that is up and not in a commit. -/
theorem Live.idle (hl : Live start s) (hup : s.mode = .up) (hc : s.committing = false) :
    diskHead start s = [] ∧ ∀ b, b ∉ s.lh → bread s b = s.disk b := by
  obtain ⟨hhead, _, hclean⟩ := hl.stage.todo_nil (hl.todoNil hup hc)
  exact ⟨hhead, hclean⟩

theorem beginOp_eq {s : St} (h : beginOp s = some s') : s.committing = false ∧
      (s.lh.length : Int) + (s.outstanding + 1) * maxOpBlocks ≤ logBlocks ∧
      s' = { s with outstanding := s.outstanding + 1 } := by
  unfold beginOp at h
  split at h
  · cases h
  · rename_i hc
    split at h
    · cases h
    · rename_i hle
      cases h
      exact ⟨by simpa using hc, by omega, rfl⟩

theorem OpsCount.begin (hc : OpsCount s) (ht : s.ops t = none) :
    OpsCount { s with outstanding := s.outstanding + 1,
                      ops := update s.ops t (some []) } := by
  obtain ⟨A, hA, hcard⟩ := hc
  have hnot : t ∉ A := by rw [hA, ht]; simp
  refine ⟨insert t A, ?_, ?_⟩
  · intro u
    by_cases hu : u = t
    · simp [hu]
    · simp [hu, hA]
  · rw [Finset.card_insert_of_notMem hnot]
    simp [hcard]

theorem OpsCount.finish (hc : OpsCount s) (ht : s.ops t ≠ none)
    (hout : s'.outstanding = s.outstanding - 1) (hops : s'.ops = update s.ops t none) :
    OpsCount s' := by
  obtain ⟨A, hA, hcard⟩ := hc
  have hmem : t ∈ A := (hA t).mpr ht
  refine ⟨A.erase t, ?_, ?_⟩
  · intro u
    rw [hops]
    by_cases hu : u = t
    · simp [hu]
    · simp [hu, hA]
  · have hpos := Finset.card_pos.mpr ⟨t, hmem⟩
    rw [Finset.card_erase_of_mem hmem, hout, hcard]
    omega

/-- An open operation that stays open. -/
theorem OpsCount.keep (hc : OpsCount s) (ht : s.ops t ≠ none)
    (hout : s'.outstanding = s.outstanding)
    (hops : s'.ops = update s.ops t (some l)) : OpsCount s' := by
  obtain ⟨A, hA, hcard⟩ := hc
  refine ⟨A, ?_, hout.trans hcard⟩
  intro u
  rw [hops]
  by_cases hu : u = t
  · rw [hu]
    simp [(hA t).mpr ht]
  · simp [hu, hA]

section

variable (hi : Inv start d₀ s h) (hup : s.mode = .up)

include hi hup

theorem inv_beginOp (hp : s.panicked = none)
    (hb : beginOp s = some s') (ht : s.ops t = none) :
    Inv start d₀ { s' with ops := update s'.ops t (some []) } h := by
  have hl := hi.live (by rw [hup]; decide) hp
  obtain ⟨hc, _, rfl⟩ := beginOp_eq hb
  obtain ⟨hhead, hclean⟩ := hl.idle hup hc
  have htodo := hl.todoNil hup hc
  refine inv_counters hi hup hp rfl rfl rfl rfl (fun _ => ?_) (fun _ _ => htodo) (fun _ hc' => ?_)
    (fun _ => ?_)
  · exact .idle (by show s.mode ≠ _; rw [hup]; decide) htodo hhead
      (fun hr => absurd (hup.symm.trans hr) (by decide)) hclean
  · exact absurd (hc.symm.trans hc') (by decide)
  · exact hl.count.begin ht

theorem inv_endOp (hp : s.panicked = none) (ht : s.ops t ≠ none) :
    Inv start d₀ { endOp s with ops := update (endOp s).ops t none } h := by
  have hl := hi.live (by rw [hup]; decide) hp
  have hoff : s.mode ≠ .off := by rw [hup]; decide
  have hrec : s.mode = .recovering → s.lh = [] := fun hr => absurd (hup.symm.trans hr) (by decide)
  cases hc : s.committing with
  | true =>
    have he : endOp s = { s with outstanding := s.outstanding - 1,
                                 panicked := some .logCommitting } := by
      simp [endOp, hc]
    rw [he]
    exact inv_counters hi hup hp rfl rfl rfl rfl nofun nofun nofun nofun
  | false =>
    obtain ⟨hhead, hclean⟩ := hl.idle hup hc
    have htodo := hl.todoNil hup hc
    by_cases h0 : s.outstanding - 1 = 0
    · -- the last operation starts the commit
      have he : endOp s = { s with outstanding := s.outstanding - 1, committing := true,
                                   todo := commit s.lh.length } := by
        simp [endOp, hc, h0]
      rw [he]
      refine inv_counters hi hup hp rfl rfl rfl rfl (fun _ => ?_) nofun
        (fun _ _ => h0) (fun _ => hl.count.finish ht rfl rfl)
      by_cases hn : 0 < s.lh.length
      · exact .logging 0 hup rfl (Nat.zero_le _) (if_pos hn) hhead hclean
          (fun i hlt => absurd hlt (Nat.not_lt_zero i))
      · exact .idle hoff (if_neg hn) hhead hrec hclean
    · have he : endOp s = { s with outstanding := s.outstanding - 1 } := by
        simp [endOp, hc, h0]
      rw [he]
      exact inv_counters hi hup hp rfl rfl rfl rfl
        (fun _ => .idle hoff htodo hhead hrec hclean) (fun _ _ => htodo)
        (fun _ hc' => absurd (hc.symm.trans hc') (by decide))
        (fun _ => hl.count.finish ht rfl rfl)

theorem inv_commitDone (hp : s.panicked = none)
    (ht : s.todo = []) : Inv start d₀ { s with committing := false } h := by
  have hl := hi.live (by rw [hup]; decide) hp
  obtain ⟨hhead, _, hclean⟩ := hl.stage.todo_nil ht
  refine inv_counters hi hup hp rfl rfl rfl rfl (fun _ => ?_) (fun _ _ => ht) nofun
    (fun _ => hl.count)
  exact .idle (by show s.mode ≠ _; rw [hup]; decide) ht hhead
    (fun hr => absurd (hup.symm.trans hr) (by decide)) hclean

/-- A stopped machine keeps the clauses about its disk. -/
theorem inv_panic {h' : Hist}
    (hcom : h'.committed = h.committed) (hdisk : s'.disk = s.disk) (hmode : s'.mode = s.mode)
    (hp : s'.panicked ≠ none) : Inv start d₀ s' h' := by
  have hhead : diskHead start s' = diskHead start s := diskHead_of_disk_start (by rw [hdisk])
  have href : reference start d₀ h' = reference start d₀ h := by
    unfold reference
    rw [hcom]
  have hup' : s'.mode = .up := hmode.trans hup
  refine ⟨?_, ?_, ?_, fun _ h => absurd h hp, fun _ h => absurd h hp, fun h => absurd h hp,
    fun h => absurd h hp, fun h => absurd hup' h, fun h => absurd hup' h, fun h => absurd hup' h⟩
  · rw [hhead]
    exact hi.head
  · rw [hhead, hdisk, href]
    exact hi.redoLog
  · rw [hhead, hdisk, href]
    exact hi.redoHome

end

theorem logWrite_cases (s : St) (b : Nat) (d : Block) : (logBlocks ≤ s.lh.length ∧
      logWrite s b d = { setBuf s b d with panicked := some .tooBigATransaction }) ∨
    (s.lh.length < logBlocks ∧ s.outstanding < 1 ∧
      logWrite s b d = { setBuf s b d with panicked := some .logWriteOutsideOfTrans }) ∨
    (s.lh.length < logBlocks ∧ 1 ≤ s.outstanding ∧
      logWrite s b d = { setBuf s b d with lh := absorb b s.lh }) := by
  by_cases h1 : s.lh.length ≥ logBlocks
  · exact .inl ⟨h1, by simp [logWrite, setBuf, h1]⟩
  · have h1' : s.lh.length < logBlocks := by omega
    by_cases h2 : s.outstanding < 1
    · exact .inr (.inl ⟨h1', h2, by simp [logWrite, setBuf, h1', h2]⟩)
    · exact .inr (.inr ⟨h1', by omega, by simp [logWrite, setBuf, h1', h2]⟩)

theorem mem_absorb {a : Nat} : a ∈ absorb b l ↔ a = b ∨ a ∈ l := by
  rw [absorb_eq]
  split
  · rename_i h
    constructor
    · exact .inr
    · rintro (rfl | h')
      · exact h
      · exact h'
  · rw [mem_append, mem_singleton]
    exact or_comm

theorem inv_logWrite (hi : Inv start d₀ s h) (hup : s.mode = .up) (hp : s.panicked = none)
    (hb : Home start b) (d : Block) (ht : s.ops t ≠ none) (l : List Nat) :
    Inv start d₀ { logWrite s b d with ops := update (logWrite s b d).ops t (some l) }
      { h with pending := h.pending ++ [(b, d)] } := by
  have hl := hi.live (by rw [hup]; decide) hp
  rcases logWrite_cases s b d with ⟨_, he⟩ | ⟨_, _, he⟩ | ⟨hlt, hout, he⟩
  · rw [he]
    exact inv_panic hi hup rfl rfl rfl (by simp)
  · rw [he]
    exact inv_panic hi hup rfl rfl rfl (by simp)
  · -- an operation is open, so no commit is running and the header is empty
    have hc : s.committing = false := by
      cases hc : s.committing with
      | false => rfl
      | true => have := hl.outZero hc; omega
    obtain ⟨hhead, hclean⟩ := hl.idle hup hc
    have htodo := hl.todoNil hup hc
    have hbread : ∀ a, bread (setBuf s b d) a = if a = b then d else bread s a := by
      intro a
      split
      · rename_i hab
        rw [hab, bread_setBuf_same]
      · rename_i hab
        exact bread_setBuf_ne s d hab
    rw [he]
    refine ⟨hi.head, hi.redoLog, hi.redoHome, ?_, ?_, ?_, ?_, fun h => absurd hup h,
      fun h => absurd hup h, fun h => absurd hup h⟩
    · intro _ _
      refine ⟨hl.lhWf.absorb hb hlt, .idle (by show s.mode ≠ _; rw [hup]; decide) htodo hhead
        (fun hr => absurd (hup.symm.trans hr) (by decide)) ?_, fun _ _ => htodo,
        fun hc' => absurd (hc.symm.trans hc') (by decide), hl.count.keep ht rfl rfl⟩
      intro a ha
      have ha : a ∉ absorb b s.lh := ha
      rw [mem_absorb, not_or] at ha
      show bread (setBuf s b d) a = s.disk a
      rw [hbread, if_neg ha.1]
      exact hclean a ha.2
    · intro _ _ a ha
      show bread (setBuf s b d) a = applyWrites (h.pending ++ [(b, d)]) (reference start d₀ h) a
      rw [hbread, applyWrites_snoc, update_apply]
      split
      · rfl
      · exact hi.view hup hp a ha
    · intro _ a ha
      rw [map_append, mem_append] at ha
      rw [mem_absorb]
      rcases ha with ha | ha
      · exact .inr (hi.pendLogged hp a ha)
      · exact .inl (by simpa using ha)
    · intro _ hne
      exact absurd hhead hne

/-! ## Every step -/

theorem inv_step (hi : Inv start d₀ s h) {e : Ev} (hok : HomeWrites start e)
    (hs : step start s e = some s') : Inv start d₀ s' (histStep s h e) := by
  cases e with
  | crash =>
    cases hs
    exact inv_crash hi
  | boot =>
    simp only [step] at hs
    split at hs
    · rename_i hm
      cases hs
      exact inv_boot hi hm
    · cases hs
  | initlogDone =>
    simp only [step] at hs
    split at hs
    · rename_i hm
      cases hs
      exact inv_initlogDone hi hm.1 hm.2 (hi.noPanic (by rw [hm.1]; decide))
    · cases hs
  | disk =>
    simp only [step] at hs
    split at hs
    · cases hs
    · rename_i hm
      rw [not_or, not_not] at hm
      split at hs
      · cases hs
      · rename_i op rest ht
        cases hs
        exact inv_disk hi hm.1 hm.2 ht
  | beginOp t =>
    simp only [step] at hs
    split at hs
    · rename_i hg
      obtain ⟨s1, h1, rfl⟩ := Option.map_eq_some_iff.mp hs
      exact inv_beginOp hi hg.1 hg.2.1 h1 hg.2.2
    · cases hs
  | logWrite t b d =>
    simp only [step] at hs
    split at hs
    · rename_i seen hop
      have hup : s.mode = .up := by
        by_contra hne
        rw [hi.opsOff hne t] at hop
        cases hop
      split at hs
      · rename_i hg
        cases hs
        exact inv_logWrite hi hup hg hok d (by rw [hop]; simp) _
      · cases hs
    · cases hs
  | endOp t =>
    simp only [step] at hs
    split at hs
    · rename_i hg
      have hup : s.mode = .up := by
        by_contra hne
        exact hg.2 (hi.opsOff hne t)
      cases hs
      exact inv_endOp hi hup hg.1 hg.2
    · cases hs
  | commitDone =>
    simp only [step] at hs
    split at hs
    · rename_i hg
      cases hs
      exact inv_commitDone hi hg.1 hg.2.1 hg.2.2.2
    · cases hs

/-- A disk whose header is well formed, before the first start. -/
theorem inv_powerOff (hd : BlocksWf start (readHead (d₀ start))) :
    Inv start d₀ (powerOff d₀) Hist.init where
  head := hd
  redoLog := by
    intro i hlt
    show d₀ (start + i + 1) = redo start d₀ ((readHead (d₀ start)).getD i 0)
    have hlt : i < (readHead (d₀ start)).length := hlt
    rw [getD_eq_getElem _ _ hlt]
    unfold redo
    rw [if_pos (getElem_mem hlt), hd.nodup.idxOf_getElem i hlt]
  redoHome := by
    intro b _ hnot
    have hnot : b ∉ readHead (d₀ start) := hnot
    show d₀ b = redo start d₀ b
    unfold redo
    rw [if_neg hnot]
  live := fun hm => absurd rfl hm
  view := nofun
  pendLogged := by simp [Hist.init]
  pendHead := fun _ _ => rfl
  pendNil := fun _ => rfl
  noPanic := fun _ => rfl
  opsOff := fun _ _ => rfl

/-- Every run keeps the invariant, along with its history. -/
theorem inv_run (hd : BlocksWf start (readHead (d₀ start))) {tr : List Ev} {p : St × Hist}
    (hr : Run (Where (fun _ e => HomeWrites start e) (Fires (stepH start)))
      (powerOff d₀, Hist.init) tr p) : Inv start d₀ p.1 p.2 := by
  refine hr.inv_state (I := fun p => Inv start d₀ p.1 p.2) (inv_powerOff hd) ?_
  intro p e p' hi hs
  obtain ⟨s', h1, rfl⟩ := Option.map_eq_some_iff.mp hs.2
  exact inv_step hi hs.1 h1

end Xv6.Log
