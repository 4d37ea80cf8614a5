/-
  The steps of the buffer cache, and what a position says by itself.

  `Edge` lists the steps of `edge` with the tests that lead to them. Which buffers a thread has a
  reference to or has locked, for which blocks, and how far a commit has come can be read off its
  position.
-/
import Xv6.Bio.Model

namespace Xv6.Bio

open Lib List Option
open Log (Block absorb headerBlock)

variable {T : Type} {n : ℕ}

/-! ## Positions -/

/-- The buffers that `log.c` has when it calls `bread`. -/
def Cont.refs : Cont n → List (Fin n)
  | .logFrom _ dst => [dst]
  | .insHome _ lbuf => [lbuf]
  | _ => []

/-- The buffers that a position refers to, apart from those of the caller. -/
def Pc.refs : Pc n → List (Fin n)
  | .get b c | .got b c => b :: c.refs
  | .out b k => b :: k.refs
  | .logTo _ dst | .logLast _ dst => [dst]
  | .logBoth _ dst src | .logMoved _ dst src | .logWritten _ dst src => [src, dst]
  | .headGot _ b | .headSet _ b | .headWritten _ b => [b]
  | .insLog _ lbuf => [lbuf]
  | .insBoth _ lbuf dbuf | .insMoved _ lbuf dbuf | .insWritten _ lbuf dbuf => [dbuf, lbuf]
  | .insUnpinned _ lbuf dbuf => [lbuf, dbuf]
  | .insLast _ dbuf => [dbuf]
  | _ => []

/-- Those of them that are locked and filled. -/
def Pc.ready : Pc n → List (Fin n)
  | .get _ c | .got _ c => c.refs
  | .out _ k => k.ready
  | pc => pc.refs

def Pc.locks : Pc n → List (Fin n)
  | .got b c => b :: c.refs
  | .out _ k => k.locks
  | pc => pc.ready

/-- The block that is read. -/
def Cont.block (start : ℕ) (lh : List ℕ) : Cont n → Option ℕ
  | .user => none
  | .logTo tail | .insLog tail => some (start + tail + 1)
  | .logFrom tail _ | .insHome tail _ => some (lh.getD tail 0)
  | .head _ => some start

def Cont.names (start : ℕ) : Cont n → List (Fin n × ℕ)
  | .logFrom tail b | .insHome tail b => [(b, start + tail + 1)]
  | _ => []

/-- The blocks that the buffers of `log.c` are for. -/
def Pc.names (start : ℕ) (lh : List ℕ) : Pc n → List (Fin n × ℕ)
  | .get b c | .got b c =>
    match c.block start lh with
    | some β => (b, β) :: c.names start
    | none => []
  | .out _ k => k.names start lh
  | .logTo tail dst | .logLast tail dst => [(dst, start + tail + 1)]
  | .logBoth tail dst src | .logMoved tail dst src | .logWritten tail dst src =>
    [(src, lh.getD tail 0), (dst, start + tail + 1)]
  | .headGot _ b | .headSet _ b | .headWritten _ b => [(b, start)]
  | .insLog tail lbuf => [(lbuf, start + tail + 1)]
  | .insBoth tail lbuf dbuf | .insMoved tail lbuf dbuf | .insWritten tail lbuf dbuf
  | .insUnpinned tail lbuf dbuf => [(dbuf, lh.getD tail 0), (lbuf, start + tail + 1)]
  | .insLast tail dbuf => [(dbuf, lh.getD tail 0)]
  | _ => []

def Cont.commits : Cont n → Bool
  | .user => false
  | _ => true

/-- The position is in `commit`. -/
def Pc.commits : Pc n → Bool
  | .free | .logPin _ => false
  | .get _ c | .got _ c => c.commits
  | .out _ k => k.commits
  | _ => true

/-- The buffer that `log_write` is going to pin. -/
def Pc.pinning : Pc n → Option (Fin n)
  | .logPin b => some b
  | .out _ k => k.pinning
  | _ => none

def Cont.round : Cont n → Option ℕ
  | .logTo tail | .insLog tail | .logFrom tail _ | .insHome tail _ => some tail
  | _ => none

/-- The round of `write_log` or `install_trans`. -/
def Pc.round : Pc n → Option ℕ
  | .get _ c | .got _ c => c.round
  | .logTo tail _ | .logBoth tail _ _ | .logMoved tail _ _ | .logWritten tail _ _ | .logLast tail _
  | .insLog tail _ | .insBoth tail _ _ | .insMoved tail _ _ | .insWritten tail _ _
  | .insUnpinned tail _ _ | .insLast tail _ => some tail
  | .out _ k => k.round
  | _ => none

def Cont.copied (m : ℕ) : Cont n → ℕ
  | .logTo tail | .logFrom tail _ => tail
  | _ => m

/-- How many of `m` blocks `write_log` has written. -/
def Pc.copied (m : ℕ) : Pc n → ℕ
  | .get _ c | .got _ c => c.copied m
  | .out _ k => k.copied m
  | .logStart tail | .logTo tail _ | .logBoth tail _ _ | .logMoved tail _ _ => tail
  | .logWritten tail _ _ | .logLast tail _ => tail + 1
  | _ => m

def Cont.unpinned : Cont n → ℕ
  | .insLog tail | .insHome tail _ => tail
  | _ => 0

/-- How many blocks `install_trans` has unpinned. -/
def Pc.unpinned : Pc n → ℕ
  | .get _ c | .got _ c => c.unpinned
  | .out _ k => k.unpinned
  | .insStart tail | .insLog tail _ | .insBoth tail _ _ | .insMoved tail _ _
  | .insWritten tail _ _ => tail
  | .insUnpinned tail _ _ | .insLast tail _ => tail + 1
  | _ => 0

/-- The log block that differs from its buffer. -/
def Pc.writing : Pc n → Option (Fin n)
  | .logMoved _ dst _ => some dst
  | .headSet _ b => some b
  | .out _ k => k.writing
  | _ => none

/-- A round of `write_log` before `bwrite`, with its log block. -/
def Pc.moved : Pc n → Option (ℕ × Fin n)
  | .logMoved tail dst _ => some (tail, dst)
  | .out _ k => k.moved
  | _ => none

/-- A round of `install_trans` between `bwrite` and `bunpin`. -/
def Pc.written : Pc n → Option ℕ
  | .insWritten tail _ _ => some tail
  | .out _ k => k.written
  | _ => none

/-! ## Steps -/

/-- The position calls `bread(β)`. -/
inductive Calls (start : ℕ) (lh : List ℕ) : Pc n → ℕ → Cont n → Prop
  | user (β : ℕ) : Calls start lh .free β .user
  | logTo (tail : ℕ) (h : tail < lh.length) :
      Calls start lh (.logStart tail) (start + tail + 1) (.logTo tail)
  | logFrom (tail : ℕ) (dst : Fin n) :
      Calls start lh (.logTo tail dst) (lh.getD tail 0) (.logFrom tail dst)
  | head (last : Bool) : Calls start lh (.headStart last) start (.head last)
  | insLog (tail : ℕ) (h : tail < lh.length) :
      Calls start lh (.insStart tail) (start + tail + 1) (.insLog tail)
  | insHome (tail : ℕ) (lbuf : Fin n) :
      Calls start lh (.insLog tail lbuf) (lh.getD tail 0) (.insHome tail lbuf)

/-- The position calls `brelse(b)` and goes on at `k`. -/
inductive Releases : Pc n → Fin n → Pc n → Prop
  | logFrom (tail : ℕ) (dst src : Fin n) : Releases (.logWritten tail dst src) src
      (.logLast tail dst)
  | logTo (tail : ℕ) (dst : Fin n) : Releases (.logLast tail dst) dst (.logStart (tail + 1))
  | head (last : Bool) (b : Fin n) :
      Releases (.headWritten last b) b (if last then .done else .insStart 0)
  | insLog (tail : ℕ) (lbuf dbuf : Fin n) :
      Releases (.insUnpinned tail lbuf dbuf) lbuf (.insLast tail dbuf)
  | insHome (tail : ℕ) (dbuf : Fin n) : Releases (.insLast tail dbuf) dbuf (.insStart (tail + 1))

/-- The position sets the data of a buffer. -/
inductive Moves (s : St T n) : Pc n → Fin n → Block → Pc n → Prop
  | log (tail : ℕ) (dst src : Fin n) :
      Moves s (.logBoth tail dst src) dst (s.buf src).data (.logMoved tail dst src)
  | head (last : Bool) (b : Fin n) :
      Moves s (.headGot last b) b (headerBlock s.lh (s.buf b).data) (.headSet last b)
  | ins (tail : ℕ) (lbuf dbuf : Fin n) :
      Moves s (.insBoth tail lbuf dbuf) dbuf (s.buf lbuf).data (.insMoved tail lbuf dbuf)

/-- The position calls `bwrite`. -/
inductive Writes : Pc n → Fin n → Pc n → Prop
  | log (tail : ℕ) (dst src : Fin n) :
      Writes (.logMoved tail dst src) dst (.logWritten tail dst src)
  | head (last : Bool) (b : Fin n) : Writes (.headSet last b) b (.headWritten last b)
  | ins (tail : ℕ) (lbuf dbuf : Fin n) :
      Writes (.insMoved tail lbuf dbuf) dbuf (.insWritten tail lbuf dbuf)

inductive Edge (start : ℕ) (s : St T n) (t : T) : Pc n → Op n → Pc n → Prop
  | hit {pc : Pc n} {β : ℕ} {c : Cont n} (b : Fin n) (hc : Calls start s.lh pc β c)
      (h : s.cached β = some b) : Edge start s t pc (.hit b) (.get b c)
  | recycle {pc : Pc n} {β : ℕ} {c : Cont n} (b : Fin n) (hc : Calls start s.lh pc β c)
      (h0 : s.cached β = none) (h : s.recyclable = some b) :
      Edge start s t pc (.recycle b β) (.get b c)
  | noBuffers {pc : Pc n} {β : ℕ} {c : Cont n} (hc : Calls start s.lh pc β c)
      (h0 : s.cached β = none) (h : s.recyclable = none) : Edge start s t pc (.panic .noBuffers) pc
  | acquiresleep (b : Fin n) (c : Cont n) : Edge start s t (.get b c) (.acquiresleep b) (.got b c)
  | fill (b : Fin n) (c : Cont n) (hc : c.commits = true) :
      Edge start s t (.got b c) (.fill b) (c.ret b)
  | hold (b : Fin n) : Edge start s t (.got b .user) (.hold b) .free
  | modify (b : Fin n) (d : Block) (hb : b ∈ s.held t) (ha : ¬LogArea start (s.buf b).blockno) :
      Edge start s t .free (.modify b d) .free
  | absorb (b : Fin n) (hb : b ∈ s.held t) (ha : ¬LogArea start (s.buf b).blockno)
      (ho : 1 ≤ s.outstanding) (hm : (s.buf b).blockno ∈ s.lh) :
      Edge start s t .free (.absorb b) .free
  | logAcquire (b : Fin n) (hb : b ∈ s.held t) (ha : ¬LogArea start (s.buf b).blockno)
      (hn : s.lh.length < logBlocks) (ho : 1 ≤ s.outstanding) (hm : (s.buf b).blockno ∉ s.lh) :
      Edge start s t .free .logAcquire (.logPin b)
  | pin (b : Fin n) : Edge start s t (.logPin b) (.pin b) .free
  | release (b : Fin n) (hb : b ∈ s.held t) (hc : s.changed b = false)
      (hl : (s.buf b).lock = some t) :
      Edge start s t .free (.release b) (.out b .free)
  | releasesleep {pc k : Pc n} {b : Fin n} (hr : Releases pc b k) (hl : (s.buf b).lock = some t) :
      Edge start s t pc (.releasesleep b) (.out b k)
  | drop (b : Fin n) (k : Pc n) : Edge start s t (.out b k) (.drop b) k
  | move {pc pc' : Pc n} {b : Fin n} {d : Block} (hm : Moves s pc b d pc') :
      Edge start s t pc (.move b d) pc'
  | bwrite {pc pc' : Pc n} {b : Fin n} (hw : Writes pc b pc') (hl : (s.buf b).lock = some t) :
      Edge start s t pc (.bwrite b) pc'
  | bunpin (tail : ℕ) (lbuf dbuf : Fin n) :
      Edge start s t (.insWritten tail lbuf dbuf) (.bunpin dbuf) (.insUnpinned tail lbuf dbuf)
  | beginOp (h : s.ops t = none) (hc : s.committing = false)
      (hr : (s.lh.length : ℤ) + (s.outstanding + 1) * maxOpBlocks ≤ logBlocks) :
      Edge start s t .free .beginOp .free
  | endOp (h : s.ops t ≠ none) (hc : s.committing = false) (ho : s.outstanding ≠ 1) :
      Edge start s t .free (.endOp false) .free
  | commit (h : s.ops t ≠ none) (hc : s.committing = false) (ho : s.outstanding = 1) :
      Edge start s t .free (.endOp true) (commit s)
  | logged (tail : ℕ) (h : s.lh.length ≤ tail) :
      Edge start s t (.logStart tail) .skip (.headStart false)
  | clear (tail : ℕ) (h : s.lh.length ≤ tail) :
      Edge start s t (.insStart tail) .clear (.headStart true)
  | done : Edge start s t .done .commitDone .free
  | panic (pc : Pc n) (p : Panic) (hp : p ≠ .noBuffers) : Edge start s t pc (.panic p) pc

namespace Edge

variable {start : ℕ} {s : St T n} {t : T} {pc pc' k : Pc n} {op : Op n} {β : ℕ} {b : Fin n}
  {c : Cont n}

theorem of_bget (hc : Calls start s.lh pc β c) (h : bget s β c pc = (op, pc')) :
    Edge start s t pc op pc' := by
  unfold bget at h
  split at h
  · cases h
    exact .hit _ hc (by assumption)
  · split at h
    · cases h
      exact .recycle _ hc (by assumption) (by assumption)
    · cases h
      exact .noBuffers hc (by assumption) (by assumption)

theorem of_logWrite (hb : b ∈ s.held t) (ha : ¬LogArea start (s.buf b).blockno)
    (h : logWrite s b = (op, pc')) : Edge start s t .free op pc' := by
  unfold logWrite at h
  split at h
  · cases h
    exact .panic _ _ (by decide)
  split at h
  · cases h
    exact .panic _ _ (by decide)
  split at h
  · cases h
    exact .absorb b hb ha (by omega) (by assumption)
  · cases h
    exact .logAcquire b hb ha (by omega) (by omega) (by assumption)

theorem of_endOp (h0 : s.ops t ≠ none) (h : Bio.endOp s = (op, pc')) :
    Edge start s t .free op pc' := by
  unfold Bio.endOp at h
  split at h
  · cases h
    exact .panic _ _ (by decide)
  rename_i hc
  split at h
  · cases h
    exact .commit h0 (by simpa using hc) (by omega)
  · cases h
    exact .endOp h0 (by simpa using hc) (by omega)

variable [DecidableEq T]

theorem of_bwrite (hw : Writes pc b k) (h : Bio.bwrite s t b pc k = (op, pc')) :
    Edge start s t pc op pc' := by
  unfold Bio.bwrite at h
  split at h
  · cases h
    exact .bwrite hw (by assumption)
  · cases h
    exact .panic _ _ (by decide)

theorem of_brelse (hr : Releases pc b k) (h : brelse s t b pc k = (op, pc')) :
    Edge start s t pc op pc' := by
  unfold brelse at h
  split at h
  · cases h
    exact .releasesleep hr (by assumption)
  · cases h
    exact .panic _ _ (by decide)

theorem of_edge {e : Choice n} (h : edge start s t pc e = some (op, pc')) :
    Edge start s t pc op pc' := by
  unfold edge at h
  split at h
  · exact of_bget (.user _) (some.inj h)
  · split at h
    · rename_i hg
      cases h
      exact .modify _ _ (List.contains_iff_mem.mp hg.1) hg.2
    · cases h
  · split at h
    · rename_i hg
      exact of_logWrite (List.contains_iff_mem.mp hg.1) hg.2 (some.inj h)
    · cases h
  · split at h
    · rename_i hg
      split at h
      · cases h
        exact .release _ (List.contains_iff_mem.mp hg.1) hg.2 (by assumption)
      · cases h
        exact .panic _ _ (by decide)
    · cases h
  · split at h
    · rename_i h0
      unfold Bio.beginOp at h
      split at h
      · cases h
      rename_i hc
      split at h
      · cases h
      · cases h
        exact .beginOp h0 (by simpa using hc) (by omega)
    · cases h
  · split at h
    · cases h
    · exact of_endOp (by assumption) (some.inj h)
  · cases h
    exact .acquiresleep _ _
  · cases h
    exact .hold _
  · rename_i c hc
    cases h
    refine .fill _ _ ?_
    cases c <;> first | rfl | exact absurd rfl hc
  · cases h
    exact .drop _ _
  · cases h
    exact .pin _
  · split at h
    · exact of_bget (.logTo _ (by assumption)) (some.inj h)
    · cases h
      exact .logged _ (by omega)
  · exact of_bget (.logFrom _ _) (some.inj h)
  · cases h
    exact .move (.log _ _ _)
  · exact of_bwrite (.log _ _ _) (some.inj h)
  · exact of_brelse (.logFrom _ _ _) (some.inj h)
  · exact of_brelse (.logTo _ _) (some.inj h)
  · exact of_bget (.head _) (some.inj h)
  · cases h
    exact .move (.head _ _)
  · exact of_bwrite (.head _ _) (some.inj h)
  · exact of_brelse (.head _ _) (some.inj h)
  · split at h
    · exact of_bget (.insLog _ (by assumption)) (some.inj h)
    · cases h
      exact .clear _ (by omega)
  · exact of_bget (.insHome _ _) (some.inj h)
  · cases h
    exact .move (.ins _ _ _)
  · exact of_bwrite (.ins _ _ _) (some.inj h)
  · cases h
    exact .bunpin _ _ _
  · exact of_brelse (.insLog _ _ _) (some.inj h)
  · exact of_brelse (.insHome _ _) (some.inj h)
  · cases h
    exact .done
  · cases h

end Edge

/-! ## What a step does to a position -/

/-- The buffers of the caller after an operation of thread `t`. -/
def Op.keeps (held : List (Fin n)) : Op n → List (Fin n)
  | .hold b => b :: held
  | .release b => held.erase b
  | _ => held

/-- The references an operation takes. -/
def Op.takes (x : Fin n) : Op n → ℕ
  | .hit b | .recycle b _ => if b = x then 1 else 0
  | _ => 0

def Op.drops (x : Fin n) : Op n → ℕ
  | .drop b => if b = x then 1 else 0
  | _ => 0

def Op.locks (x : Fin n) : Op n → ℕ
  | .acquiresleep b => if b = x then 1 else 0
  | _ => 0

def Op.unlocks (x : Fin n) : Op n → ℕ
  | .releasesleep b | .release b => if b = x then 1 else 0
  | _ => 0

section

variable {start : ℕ} {s : St T n} {t : T} {pc pc' k : Pc n} {op : Op n} {β : ℕ} {b : Fin n}
  {c : Cont n}

theorem Calls.refs (h : Calls start s.lh pc β c) : c.refs = pc.refs ∧ c.refs = pc.ready ∧
    c.refs = pc.locks := by
  cases h <;> exact ⟨rfl, rfl, rfl⟩

theorem Cont.ret_refs (c : Cont n) (hc : c.commits = true) (b : Fin n) :
    (c.ret b).refs = b :: c.refs ∧ (c.ret b).ready = b :: c.refs ∧
    (c.ret b).locks = b :: c.refs := by
  cases c <;> first | exact ⟨rfl, rfl, rfl⟩ | cases hc

theorem count_cons_eq (x b : Fin n) (l : List (Fin n)) :
    (b :: l).count x = l.count x + if b = x then 1 else 0 := by
  rw [count_cons]
  simp only [beq_iff_eq]

theorem count_erase_eq {l : List (Fin n)} {b : Fin n} (h : b ∈ l) (x : Fin n) :
    (l.erase b).count x + (if b = x then 1 else 0) = l.count x := by
  by_cases hx : b = x
  · subst hx
    rw [if_pos rfl, count_erase_self]
    have := List.count_pos_iff.mpr h
    omega
  · rw [if_neg hx, count_erase_of_ne (fun h => hx h.symm), Nat.add_zero]

theorem Releases.refs (h : Releases pc b k) (x : Fin n) :
    pc.refs.count x = k.refs.count x + (if b = x then 1 else 0) ∧
    pc.locks.count x = k.locks.count x + (if b = x then 1 else 0) := by
  cases h with
  | head last b => cases last <;> exact ⟨count_cons_eq .., count_cons_eq ..⟩
  | _ => exact ⟨count_cons_eq .., count_cons_eq ..⟩

theorem Moves.refs {d : Block} (h : Moves s pc b d pc') :
    pc'.refs = pc.refs ∧ pc'.locks = pc.locks := by
  cases h <;> exact ⟨rfl, rfl⟩

theorem Writes.refs (h : Writes pc b pc') : pc'.refs = pc.refs ∧ pc'.locks = pc.locks := by
  cases h <;> exact ⟨rfl, rfl⟩

theorem commit_refs (s : St T n) : (commit s).refs = [] ∧ (commit s).locks = [] := by
  unfold commit
  split <;> exact ⟨rfl, rfl⟩

/-- References to `x`. -/
theorem Edge.refs (he : Edge start s t pc op pc') (x : Fin n) :
    (op.keeps (s.held t)).count x + pc'.refs.count x + op.drops x =
      (s.held t).count x + pc.refs.count x + op.takes x := by
  cases he with
  | hit b hc h | recycle b hc h0 h =>
    show _ + (b :: _).count x + 0 = _ + _ + (if b = x then 1 else 0)
    rw [count_cons_eq, hc.refs.1]
    exact (Nat.add_assoc ..).symm
  | fill b c hc =>
    rw [(c.ret_refs hc b).1]
    rfl
  | hold b =>
    show (b :: _).count x + 0 + 0 = _ + [b].count x + 0
    rw [count_cons_eq, count_cons_eq, count_nil]
    omega
  | release b hb hc hl =>
    have := count_erase_eq hb x
    show ((s.held t).erase b).count x + [b].count x + 0 = (s.held t).count x + 0 + 0
    rw [count_cons_eq, count_nil]
    omega
  | releasesleep hr hl =>
    rw [(hr.refs x).1]
    exact congrArg (_ + ·) (count_cons_eq ..)
  | drop b k =>
    show _ + _ + (if b = x then 1 else 0) = _ + (b :: _).count x + 0
    rw [count_cons_eq]
    exact Nat.add_assoc ..
  | move hm =>
    rw [hm.refs.1]
    rfl
  | bwrite hw hl =>
    rw [hw.refs.1]
    rfl
  | bunpin tail lbuf dbuf =>
    show _ + [lbuf, dbuf].count x + 0 = _ + [dbuf, lbuf].count x + 0
    rw [(List.Perm.swap lbuf dbuf []).count_eq]
    rfl
  | commit h hc ho =>
    rw [(commit_refs s).1]
    rfl
  | _ => rfl

theorem Edge.locks (he : Edge start s t pc op pc') (x : Fin n) :
    (op.keeps (s.held t)).count x + pc'.locks.count x + op.unlocks x =
      (s.held t).count x + pc.locks.count x + op.locks x := by
  cases he with
  | hit b hc h | recycle b hc h0 h =>
    show _ + (Cont.refs _).count x + 0 = _
    rw [hc.refs.2.2]
    rfl
  | acquiresleep b c =>
    show _ + (b :: c.refs).count x + 0 = _ + c.refs.count x + (if b = x then 1 else 0)
    rw [count_cons_eq]
    exact (Nat.add_assoc ..).symm
  | fill b c hc =>
    rw [(c.ret_refs hc b).2.2]
    rfl
  | hold b =>
    show (b :: _).count x + 0 + 0 = _ + [b].count x + 0
    rw [count_cons_eq, count_cons_eq, count_nil]
    omega
  | release b hb hc hl =>
    have := count_erase_eq hb x
    show ((s.held t).erase b).count x + 0 + (if b = x then 1 else 0) = (s.held t).count x + 0 + 0
    omega
  | releasesleep hr hl =>
    rw [(hr.refs x).2]
    exact Nat.add_assoc ..
  | move hm =>
    rw [hm.refs.2]
    rfl
  | bwrite hw hl =>
    rw [hw.refs.2]
    rfl
  | bunpin tail lbuf dbuf =>
    show _ + [lbuf, dbuf].count x + 0 = _ + [dbuf, lbuf].count x + 0
    rw [(List.Perm.swap lbuf dbuf []).count_eq]
    rfl
  | commit h hc ho =>
    rw [(commit_refs s).2]
    rfl
  | _ => rfl

/-- Only `end_op` enters and leaves `commit`. -/
theorem Edge.commits (he : Edge start s t pc op pc') (h1 : op ≠ .endOp true)
    (h2 : op ≠ .commitDone) :
    pc'.commits = pc.commits := by
  cases he with
  | hit b hc h | recycle b hc h0 h => cases hc <;> rfl
  | fill b c hc => cases c <;> rfl
  | releasesleep hr hl =>
    cases hr with
    | head last b => cases last <;> rfl
    | _ => rfl
  | move hm => cases hm <;> rfl
  | bwrite hw hl => cases hw <;> rfl
  | commit h hc ho => exact absurd rfl h1
  | done => exact absurd rfl h2
  | _ => rfl

/-- `log_write` is left by `bpin`. -/
theorem Edge.pinning (he : Edge start s t pc op pc') (h : pc'.pinning = some b) :
    (pc.pinning = some b ∧ ((∃ c, op = .drop c) ∨ ∃ p, op = .panic p)) ∨
      op = .logAcquire ∧ b ∈ s.held t ∧ ¬LogArea start (s.buf b).blockno ∧
      s.lh.length < logBlocks ∧ 1 ≤ s.outstanding ∧ (s.buf b).blockno ∉ s.lh := by
  cases he with
  | hit b hc _ | recycle b hc _ _ => cases hc <;> cases h
  | fill b c hc => cases c <;> cases h
  | logAcquire b hb ha hn ho hm =>
    cases h
    exact .inr ⟨rfl, hb, ha, hn, ho, hm⟩
  | releasesleep hr hl =>
    cases hr with
    | head last b => cases last <;> cases h
    | _ => cases h
  | move hm => cases hm <;> cases h
  | bwrite hw hl => cases hw <;> cases h
  | commit h' hc ho =>
    unfold Bio.commit at h
    split at h <;> cases h
  | drop b k => exact .inl ⟨h, .inl ⟨b, rfl⟩⟩
  | noBuffers hc h0 h' | panic pc p hp => exact .inl ⟨h, .inr ⟨_, rfl⟩⟩
  | _ => cases h

theorem commit_facts (s : St T n) : (commit s).commits = true ∧ (commit s).round = none ∧
    (commit s).unpinned = 0 ∧ (commit s).copied s.lh.length = 0 ∧ (commit s).ready = [] ∧
    ∀ start lh, (commit s).names start lh = [] := by
  unfold commit
  split
  · exact ⟨rfl, rfl, rfl, rfl, rfl, fun _ _ => rfl⟩
  · exact ⟨rfl, rfl, rfl, Nat.eq_zero_of_not_pos (by assumption), rfl, fun _ _ => rfl⟩

section

variable (he : Edge start s t pc op pc')

include he

/-- A round is begun for a block of the log. -/
theorem Edge.round {i : ℕ} (h : pc'.round = some i) : pc.round = some i ∨ i < s.lh.length := by
  cases he with
  | hit b hc _ | recycle b hc _ _ =>
    cases hc with
    | logTo tail hlt | insLog tail hlt =>
      cases h
      exact .inr hlt
    | user β | head last => cases h
    | _ => exact .inl h
  | fill b c hc => cases c <;> exact .inl h
  | releasesleep hr hl =>
    cases hr with
    | head last b => cases last <;> cases h
    | logTo tail dst | insHome tail dbuf => cases h
    | _ => exact .inl h
  | move hm => cases hm <;> exact .inl h
  | bwrite hw hl => cases hw <;> exact .inl h
  | commit h' hc ho =>
    rw [(commit_facts s).2.1] at h
    cases h
  | _ => exact .inl h

theorem Edge.unpinned (h1 : op ≠ .clear) (h2 : ∀ b, op ≠ .bunpin b) :
    pc'.unpinned = pc.unpinned := by
  cases he with
  | hit b hc _ | recycle b hc _ _ => cases hc <;> rfl
  | fill b c hc => cases c <;> rfl
  | releasesleep hr hl =>
    cases hr with
    | head last b => cases last <;> rfl
    | _ => rfl
  | move hm => cases hm <;> rfl
  | bwrite hw hl => cases hw <;> rfl
  | bunpin tail lbuf dbuf => exact absurd rfl (h2 dbuf)
  | commit h hc ho => exact (commit_facts s).2.2.1
  | clear tail h => exact absurd rfl h1
  | _ => rfl

/-- The log block that is written, if it is one. -/
theorem Edge.copied (hc : pc'.commits = true) :
    (pc.commits = true ∧ pc'.copied s.lh.length ≤ pc.copied s.lh.length) ∨
    pc'.copied s.lh.length = 0 ∨
      ∃ tail dst src, pc = .logMoved tail dst src ∧ op = .bwrite dst ∧
      pc'.copied s.lh.length = tail + 1 := by
  cases he with
  | hit b hc' _ | recycle b hc' _ _ => cases hc' <;> exact .inl ⟨hc, Nat.le_refl _⟩
  | fill b c hc' => cases c <;> exact .inl ⟨hc, Nat.le_refl _⟩
  | releasesleep hr hl =>
    cases hr with
    | head last b => cases last <;> exact .inl ⟨hc, Nat.le_refl _⟩
    | _ => exact .inl ⟨hc, Nat.le_refl _⟩
  | move hm => cases hm <;> exact .inl ⟨hc, Nat.le_refl _⟩
  | bwrite hw hl =>
    cases hw with
    | log tail dst src => exact .inr (.inr ⟨tail, _, src, rfl, rfl, rfl⟩)
    | _ => exact .inl ⟨hc, Nat.le_refl _⟩
  | logged tail h => exact .inl ⟨hc, h⟩
  | commit h hc' ho => exact .inr (.inl (commit_facts s).2.2.2.1)
  | _ => first | exact .inl ⟨hc, Nat.le_refl _⟩ | cases hc

/-- What a buffer is for is known from the `bget` that gave it. -/
theorem Edge.names {y : Fin n × ℕ} (hy : y ∈ pc'.names start s.lh) :
    y ∈ pc.names start s.lh ∨ (op = .hit y.1 ∧ s.cached y.2 = some y.1) ∨
    op = .recycle y.1 y.2 := by
  cases he with
  | hit b hc h =>
    cases hc with
    | user β => cases hy
    | _ =>
      rcases List.mem_cons.mp hy with rfl | hy
      · exact .inr (.inl ⟨rfl, h⟩)
      · exact .inl hy
  | recycle b hc h0 h =>
    cases hc with
    | user β => cases hy
    | _ =>
      rcases List.mem_cons.mp hy with rfl | hy
      · exact .inr (.inr rfl)
      · exact .inl hy
  | fill b c hc => cases c <;> exact .inl hy
  | releasesleep hr hl =>
    cases hr with
    | head last b => cases last <;> cases hy
    | logFrom tail dst src => exact .inl (mem_cons_of_mem _ hy)
    | insLog tail lbuf dbuf =>
      rw [List.mem_singleton.mp hy]
      exact .inl mem_cons_self
    | _ => cases hy
  | move hm => cases hm <;> exact .inl hy
  | bwrite hw hl => cases hw <;> exact .inl hy
  | commit h hc ho =>
    rw [(commit_facts s).2.2.2.2.2] at hy
    cases hy
  | _ => exact .inl hy

theorem Edge.ready {x : Fin n} (hx : x ∈ op.keeps (s.held t) ∨ x ∈ pc'.ready) :
    (x ∈ s.held t ∨ x ∈ pc.ready) ∨ op = .fill x ∨ op = .hold x := by
  cases he with
  | hit b hc _ | recycle b hc _ _ =>
    rw [← hc.refs.2.1]
    exact .inl hx
  | fill b c hc =>
    rw [(c.ret_refs hc b).2.1] at hx
    rcases hx with hx | hx
    · exact .inl (.inl hx)
    · rcases List.mem_cons.mp hx with rfl | hx
      · exact .inr (.inl rfl)
      · exact .inl (.inr hx)
  | hold b =>
    rcases hx with hx | hx
    · rcases List.mem_cons.mp hx with rfl | hx
      · exact .inr (.inr rfl)
      · exact .inl (.inl hx)
    · cases hx
  | release b hb hc hl => exact .inl (hx.imp_left mem_of_mem_erase)
  | releasesleep hr hl =>
    refine .inl (hx.imp_right fun hx => ?_)
    cases hr with
    | head last b => cases last <;> cases hx
    | logFrom | insLog => exact mem_cons_of_mem _ hx
    | _ => cases hx
  | move hm => cases hm <;> exact .inl hx
  | bwrite hw hl => cases hw <;> exact .inl hx
  | bunpin tail lbuf dbuf =>
    exact .inl (hx.imp_right fun hx => (List.Perm.swap dbuf lbuf []).mem_iff.mp hx)
  | commit h hc ho =>
    rw [(commit_facts s).2.2.2.2.1] at hx
    exact .inl (hx.imp_right nofun)
  | _ => exact .inl hx

end

variable {pc : Pc n}

theorem Pc.mem_refs_of_names {lh : List ℕ} {y : Fin n × ℕ} (hy : y ∈ pc.names start lh) :
    y.1 ∈ pc.refs := by
  obtain ⟨b, β⟩ := y
  induction pc with
  | out b k ih => exact mem_cons_of_mem _ (ih hy)
  | get b c | got b c =>
    cases c <;> simp only [Pc.names, Pc.refs, Cont.block, Cont.names, Cont.refs, mem_cons,
      Prod.mk.injEq, not_mem_nil, or_false] at hy ⊢ <;> tauto
  | _ =>
    simp only [Pc.names, Pc.refs, mem_cons, Prod.mk.injEq, not_mem_nil, or_false] at hy ⊢ <;> tauto

theorem Pc.ready_count (pc : Pc n) (x : Fin n) : pc.ready.count x ≤ pc.locks.count x ∧
    pc.locks.count x ≤ pc.refs.count x := by
  induction pc with
  | out b k ih =>
    refine ⟨ih.1, ih.2.trans ?_⟩
    show _ ≤ (b :: k.refs).count x
    rw [count_cons_eq]
    exact Nat.le_add_right _ _
  | get b c =>
    refine ⟨Nat.le_refl _, ?_⟩
    show c.refs.count x ≤ (b :: c.refs).count x
    rw [count_cons_eq]
    exact Nat.le_add_right _ _
  | got b c =>
    refine ⟨?_, Nat.le_refl _⟩
    show c.refs.count x ≤ (b :: c.refs).count x
    rw [count_cons_eq]
    exact Nat.le_add_right _ _
  | _ => exact ⟨Nat.le_refl _, Nat.le_refl _⟩

/-- Operations of `log.c` on the contents of blocks. -/
def Op.Plain : Op n → Prop
  | .move _ _ | .bwrite _ | .bunpin _ => False
  | _ => True

theorem Edge.writing (he : Edge start s t pc op pc') (hop : op.Plain) :
    pc'.writing = pc.writing ∧ pc'.moved = pc.moved ∧ pc'.written = pc.written := by
  cases he with
  | hit b hc _ | recycle b hc _ _ => cases hc <;> exact ⟨rfl, rfl, rfl⟩
  | fill b c hc => cases c <;> exact ⟨rfl, rfl, rfl⟩
  | releasesleep hr hl =>
    cases hr with
    | head last b => cases last <;> exact ⟨rfl, rfl, rfl⟩
    | _ => exact ⟨rfl, rfl, rfl⟩
  | commit h hc ho =>
    unfold Bio.commit
    split <;> exact ⟨rfl, rfl, rfl⟩
  | _ => first | exact ⟨rfl, rfl, rfl⟩ | exact hop.elim

theorem Pc.commits_of_writing (h : pc.commits = false) :
    pc.writing = none ∧ pc.moved = none ∧ pc.written = none := by
  induction pc with
  | out b k ih => exact ih h
  | _ => first | exact ⟨rfl, rfl, rfl⟩ | cases h

theorem Pc.mem_locks_of_writing (h : pc.writing = some b) : b ∈ pc.locks := by
  induction pc with
  | out b k ih => exact ih h
  | logMoved tail dst src =>
    obtain rfl := some.inj h
    exact mem_cons_of_mem _ mem_cons_self
  | headSet last c =>
    obtain rfl := some.inj h
    exact mem_cons_self
  | _ => cases h

theorem Pc.writing_of_moved {i : ℕ} (h : pc.moved = some (i, b)) :
    pc.writing = some b ∧ pc.round = some i := by
  induction pc with
  | out b k ih => exact ih h
  | logMoved tail dst src =>
    cases h
    exact ⟨rfl, rfl⟩
  | _ => cases h

theorem Pc.mem_locks_of_moved {i : ℕ} (h : pc.moved = some (i, b)) : b ∈ pc.locks :=
  Pc.mem_locks_of_writing (Pc.writing_of_moved h).1

theorem Pc.mem_refs_of_locks (h : b ∈ pc.locks) : b ∈ pc.refs := by
  have h1 := List.count_pos_iff.mpr h
  have h2 := (pc.ready_count b).2
  exact List.count_pos_iff.mp (Nat.lt_of_lt_of_le h1 h2)

theorem Pc.mem_locks_of_ready (h : b ∈ pc.ready) : b ∈ pc.locks := by
  have h1 := List.count_pos_iff.mpr h
  have h2 := (pc.ready_count b).1
  exact List.count_pos_iff.mp (Nat.lt_of_lt_of_le h1 h2)

end

end Xv6.Bio
