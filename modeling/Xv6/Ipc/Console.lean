/-
  Console input: `consoleintr` and `consoleread` of `kernel/console.c`.

  `cons.buf` with `cons.r` and `cons.e` is a ring; `cons.w` divides what is in it into input that
  has been committed, by a newline, `^D` or a full buffer, and the line that is still edited. A call
  of `consoleread` is cut into segments at every `sleep`, as those of a pipe are; the answers of
  `killed` and `either_copyout` are given with a segment.

  A byte leaves the buffer before it is copied. When the copy fails the call ends, and the byte is
  neither in the buffer nor with a reader (`Item.lost`).
-/
import Xv6.Ipc.Pipe

namespace Xv6.Ipc

open Lib Function List Ring

/-- `INPUT_BUF_SIZE`. -/
def inputBufSize : ℕ := 128

instance : NeZero inputBufSize := ⟨by decide⟩

/-- `cons`, the lock apart; `r` is `nread` and `e` is `nwrite`. -/
structure Cons extends Ring UInt8 inputBufSize 32 where
  w : BitVec 32

namespace Cons

/-- The ring from `cons.r` to `cons.w`. -/
def done (c : Cons) : Ring UInt8 inputBufSize 32 := { c.toRing with nwrite := c.w }

/-- The ring from `cons.w` to `cons.e`. -/
def edit (c : Cons) : Ring UInt8 inputBufSize 32 := { c.toRing with nread := c.w }

/-- The committed bytes in the buffer. -/
def pending (c : Cons) : List UInt8 := c.done.contents

/-- `cons.buf[cons.e++ % INPUT_BUF_SIZE] = ch`. -/
def put (c : Cons) (ch : UInt8) : Cons := { c with toRing := c.toRing.push ch }

/-- `cons.r++`. -/
def take (c : Cons) : Cons := { c with toRing := c.toRing.pop }

/-- `cons.e--`. -/
def erase (c : Cons) : Cons := { c with toRing := c.toRing.unpush }

/-- `cons.w = cons.e`. -/
def commit (c : Cons) : Cons := { c with w := c.nwrite }

/-- The loop of `^U`, at most `k` times. -/
def killLine : ℕ → Cons → Cons
  | 0, c => c
  | k + 1, c => if c.nwrite ≠ c.w ∧ c.last ≠ 10 then killLine k c.erase else c

end Cons

/-! ## The functions -/

/-- `C('D')` -/
def ctrlD : UInt8 := 4

/-- `C('H')` -/
def ctrlH : UInt8 := 8

/-- `C('P')` -/
def ctrlP : UInt8 := 16

/-- `C('U')` -/
def ctrlU : UInt8 := 21

/-- The handler for one character, with the bytes that it commits. -/
def consoleintr (c : Cons) (ch : UInt8) : Cons × List UInt8 :=
  if ch = ctrlP then (c, [])
  else if ch = ctrlU then (c.killLine (c.nwrite - c.w).toNat, [])
  else if ch = ctrlH ∨ ch = 127 then (if c.nwrite ≠ c.w then c.erase else c, [])
  else if ch ≠ 0 ∧ (c.nwrite - c.nread).toNat < inputBufSize then
    let ch := if ch = 13 then 10 else ch
    let c := c.put ch
    if ch = 10 ∨ ch = ctrlD ∨ c.nwrite - c.nread = BitVec.ofNat 32 inputBufSize then
      (c.commit, c.edit.contents)
    else (c, [])
  else (c, [])

/-- What becomes of a byte that leaves the buffer. -/
inductive Item where
  | byte (ch : UInt8)
  | eof
  | lost (ch : UInt8)
  deriving DecidableEq

/-- The loop of `consoleread` with `n` bytes to go of `target`: the buffer, what left it, the
    end. -/
def consLoop (env : Env) (target : ℕ) : ℕ → Cons → Cons × List Item × Outcome
  | 0, c => (c, [], .ret target)
  | n + 1, c =>
    let i := target - (n + 1)
    if c.nread = c.w then (c, [], if env.killed i then .ret (-1) else .sleep i)
    else
      let ch := c.head
      let c' := c.take
      if ch = ctrlD then
        if n + 1 < target then ({ c' with nread := c'.nread - 1 }, [], .ret i) else
          (c', [.eof], .ret i)
      else if env.copyout i then
        if ch = 10 then (c', [.byte ch], .ret (i + 1))
        else
          let (c'', items, o) := consLoop env target n c'
          (c'', .byte ch :: items, o)
      else (c', [.lost ch], .ret i)

/-- A segment of `consoleread`, after `i` bytes. -/
def consoleread (env : Env) (n : ℤ) (i : ℕ) (c : Cons) : Cons × List Item × Outcome :=
  consLoop env n.toNat (n.toNat - i) c

/-! ## Calls in progress -/

structure Tty where
  cons : Cons
  /-- The call of `consoleread` that a thread is in: `n`, and the bytes that it has got. -/
  call : ℕ → Option (ℤ × ℕ)

inductive Key where
  | intr (ch : UInt8)
  | read (t : ℕ) (n : ℤ)
  /-- The next segment of thread `t`'s call. -/
  | segment (t : ℕ) (env : Env)

/-- What an event commits, what it takes out of the buffer, and the result of a call that ends. -/
structure Moved where
  committed : List UInt8 := []
  taken : List Item := []
  result : Option ℤ := none

/-- After `consoleinit`: the buffer is empty, and the counters are equal. -/
def Tty.init (data : Fin inputBufSize → UInt8) (k : BitVec 32) : Tty where
  cons := { data := data, nread := k, nwrite := k, w := k }
  call := fun _ => none

def Tty.act (s : Tty) : Key → Option (Tty × Moved)
  | .intr ch =>
    let (c, bytes) := consoleintr s.cons ch
    some ({ s with cons := c }, { committed := bytes })
  | .read t n =>
    if s.call t = none then some ({ s with call := update s.call t (some (n, 0)) }, {}) else none
  | .segment t env =>
    match s.call t with
    | none => none
    | some (n, i) =>
      let (c, items, o) := consoleread env n i s.cons
      let call := match o with
        | .ret _ => none
        | .sleep i => some (n, i)
      some (⟨c, update s.call t call⟩, { taken := items, result := o.result })

def Tty.Step (s : Tty) (l : Key × Moved) (s' : Tty) : Prop := s.act l.1 = some (s', l.2)

/-- The bytes that have been committed, in order. -/
def committed (tr : List (Key × Moved)) : List UInt8 := tr.flatMap fun l => l.2.committed

/-- What has left the buffer, in order. -/
def taken (tr : List (Key × Moved)) : List Item := tr.flatMap fun l => l.2.taken

/-- The byte that left the buffer. -/
def Item.value : Item → UInt8
  | .byte ch => ch
  | .eof => ctrlD
  | .lost ch => ch

/-- The byte that a reader has got, with `^D` for an end of file. -/
def Item.received : Item → Option UInt8
  | .byte ch => some ch
  | .eof => some ctrlD
  | .lost _ => none

/-! ## The buffer -/

namespace Cons

variable {c : Cons}

/-- `r <= w <= e <= r + INPUT_BUF_SIZE`, as distances. -/
structure Ordered (c : Cons) : Prop where
  split : c.done.len + c.edit.len = c.len
  le : c.len ≤ inputBufSize

theorem edit_take : c.take.edit = c.edit := rfl

theorem Ordered.take (h : c.Ordered) (hne : c.nread ≠ c.w) :
    c.take.Ordered ∧ c.pending = c.head :: c.take.pending := by
  have hd : c.done.len ≠ 0 := fun h0 => hne (Ring.len_eq_zero.mp h0)
  have hl : c.len ≠ 0 := by
    have := h.split
    omega
  have h1 : c.take.done.len = c.done.len - 1 := len_pop hd
  have h2 : c.take.len = c.len - 1 := len_pop hl
  refine ⟨⟨?_, ?_⟩, contents_pop hd⟩
  · rw [h1, h2, edit_take]
    have := h.split
    omega
  · rw [h2]
    have := h.le
    omega

theorem Ordered.erase (h : c.Ordered) (hne : c.nwrite ≠ c.w) :
    c.erase.Ordered ∧ c.erase.pending = c.pending := by
  have he : c.edit.len ≠ 0 := fun h0 => hne (Ring.len_eq_zero.mp h0).symm
  have hl : c.len ≠ 0 := by
    have := h.split
    omega
  have h1 : c.erase.edit.len = c.edit.len - 1 := len_unpush he
  have h2 : c.erase.len = c.len - 1 := len_unpush hl
  have h3 : c.erase.done = c.done := rfl
  refine ⟨⟨?_, ?_⟩, rfl⟩
  · rw [h1, h2, h3]
    have := h.split
    omega
  · rw [h2]
    have := h.le
    omega

/-- `^U` erases back to `cons.w` at most. -/
theorem Ordered.killLine (h : c.Ordered) (k : ℕ) :
    (c.killLine k).Ordered ∧ (c.killLine k).pending = c.pending := by
  induction k generalizing c with
  | zero => exact ⟨h, rfl⟩
  | succ k ih =>
    unfold Cons.killLine
    split
    · next hc =>
      obtain ⟨h1, h2⟩ := h.erase hc.1
      obtain ⟨h3, h4⟩ := ih h1
      exact ⟨h3, h4.trans h2⟩
    · exact ⟨h, rfl⟩

theorem Ordered.put (h : c.Ordered) (hlt : c.len < inputBufSize) (ch : UInt8) :
    (c.put ch).Ordered ∧ (c.put ch).pending = c.pending := by
  have hB : inputBufSize < 2 ^ 32 := by decide
  have hs := h.split
  have h1 : (c.put ch).len = c.len + 1 := len_push ch (by omega)
  have h2 : (c.put ch).edit.len = c.edit.len + 1 := len_push ch (r := c.edit) (by omega)
  have h3 : (c.put ch).done.len = c.done.len := rfl
  refine ⟨⟨by omega, by omega⟩, ?_⟩
  have hcell : Ring.cell inputBufSize c.nwrite =
      Ring.cell inputBufSize (c.done.nread + BitVec.ofNat 32 c.len) := by
    congr 1
    exact nwrite_eq (r := c.toRing)
  exact contents_update (by decide) hcell (by omega) (by omega) ch

theorem Ordered.commit (h : c.Ordered) :
    c.commit.Ordered ∧ c.commit.pending = c.pending ++ c.edit.contents := by
  have hself : c.commit.edit.len = 0 := Ring.len_eq_zero.mpr rfl
  have hdone : c.commit.done.len = c.len := rfl
  have hlen : c.commit.len = c.len := rfl
  refine ⟨⟨by omega, hlen ▸ h.le⟩, ?_⟩
  exact contents_split c.w h.split

end Cons

/-! ## Segments -/

variable {c : Cons} {env : Env}

/-- The handler adds what it commits, and never takes a committed byte back. -/
theorem consoleintr_spec (h : c.Ordered) (ch : UInt8) :
    (consoleintr c ch).1.Ordered ∧ (consoleintr c ch).1.pending = c.pending ++
      (consoleintr c ch).2 := by
  have hsame : c.Ordered ∧ c.pending = c.pending ++ [] := ⟨h, (append_nil _).symm⟩
  unfold consoleintr
  by_cases hP : ch = ctrlP
  · rw [if_pos hP]
    exact hsame
  rw [if_neg hP]
  by_cases hU : ch = ctrlU
  · rw [if_pos hU]
    obtain ⟨h1, h2⟩ := h.killLine (c.nwrite - c.w).toNat
    exact ⟨h1, h2.trans (append_nil _).symm⟩
  rw [if_neg hU]
  by_cases hH : ch = ctrlH ∨ ch = 127
  · rw [if_pos hH]
    split
    · next he =>
      obtain ⟨h1, h2⟩ := h.erase he
      exact ⟨h1, h2.trans (append_nil _).symm⟩
    · exact hsame
  rw [if_neg hH]
  split
  · next hc =>
    dsimp only
    generalize (if ch = 13 then 10 else ch) = ch'
    obtain ⟨h1, h2⟩ := h.put hc.2 ch'
    by_cases hend : ch' = 10 ∨ ch' = ctrlD ∨
        (c.put ch').nwrite - (c.put ch').nread = BitVec.ofNat 32 inputBufSize
    · rw [if_pos hend]
      obtain ⟨h3, h4⟩ := h1.commit
      refine ⟨h3, h4.trans ?_⟩
      rw [h2]
    · rw [if_neg hend]
      exact ⟨h1, h2.trans (append_nil _).symm⟩
  · exact hsame

/-- `cons.r--` after `cons.r++`. -/
theorem take_back (c : Cons) : { c.take with nread := c.take.nread - 1 } = c := by
  have h : c.nread + 1#32 - 1 = c.nread := BitVec.add_sub_cancel ..
  show { c with nread := c.nread + 1#32 - 1 } = c
  rw [h]

theorem consLoop_spec (env : Env) (target n : ℕ) (h : c.Ordered) :
    (consLoop env target n c).1.Ordered ∧
      c.pending = (consLoop env target n c).2.1.map Item.value ++
        (consLoop env target n c).1.pending := by
  induction n generalizing c with
  | zero => exact ⟨h, rfl⟩
  | succ n ih =>
    unfold consLoop
    dsimp only
    by_cases hr : c.nread = c.w
    · rw [if_pos hr]
      exact ⟨h, rfl⟩
    · rw [if_neg hr]
      obtain ⟨h1, h2⟩ := h.take hr
      split
      · next hD =>
        split
        · rw [take_back]
          exact ⟨h, rfl⟩
        · refine ⟨h1, h2.trans ?_⟩
          rw [hD]
          rfl
      · split
        · split
          · exact ⟨h1, h2⟩
          · obtain ⟨h3, h4⟩ := ih h1
            exact ⟨h3, h2.trans (congrArg (c.head :: ·) h4)⟩
        · exact ⟨h1, h2⟩

/-- Nothing is lost where the copies succeed. -/
theorem consLoop_received (henv : ∀ i, env.copyout i = true) (target n : ℕ) (c : Cons) :
    (consLoop env target n c).2.1.filterMap Item.received = (consLoop env target n c).2.1.map
      Item.value := by
  induction n generalizing c with
  | zero => rfl
  | succ n ih =>
    unfold consLoop
    dsimp only
    split
    · rfl
    · split
      · split
        · rfl
        · rfl
      · rw [if_pos (henv _)]
        split
        · rfl
        · exact congrArg (c.head :: ·) (ih c.take)

/-! ## Runs -/

/-- No copy to user memory fails. -/
def Key.Copies : Key → Prop
  | .segment _ env => ∀ i, env.copyout i = true
  | _ => True

theorem committed_snoc (tr : List (Key × Moved)) (l : Key × Moved) :
    committed (tr ++ [l]) = committed tr ++ l.2.committed := by
  simp [committed]

theorem taken_snoc (tr : List (Key × Moved)) (l : Key × Moved) :
    taken (tr ++ [l]) = taken tr ++ l.2.taken := by
  simp [taken]

/-- The counters are in order, and what has left the buffer with what is in it has been
    committed. -/
structure Tty.Inv (tr : List (Key × Moved)) (s : Tty) : Prop where
  ordered : s.cons.Ordered
  bytes : (taken tr).map Item.value ++ s.cons.pending = committed tr

theorem Tty.inv_step {tr : List (Key × Moved)} {s s' : Tty} {l : Key × Moved} (h : s.Inv tr)
    (hs : s.Step l s') :
    s'.Inv (tr ++ [l]) := by
  obtain ⟨e, io⟩ := l
  unfold Tty.Step Tty.act at hs
  cases e with
  | intr ch =>
    cases hs
    obtain ⟨h1, h2⟩ := consoleintr_spec h.ordered ch
    refine ⟨h1, ?_⟩
    rw [committed_snoc, taken_snoc]
    show (taken tr ++ []).map Item.value ++ (consoleintr s.cons ch).1.pending =
      committed tr ++ (consoleintr s.cons ch).2
    rw [append_nil, h2, ← append_assoc, h.bytes]
  | read t n =>
    simp only at hs
    split at hs <;> cases hs
    refine ⟨h.ordered, ?_⟩
    rw [committed_snoc, taken_snoc]
    simpa using h.bytes
  | segment t env =>
    simp only at hs
    split at hs
    · cases hs
    · rename_i n i _
      cases hs
      obtain ⟨h1, h2⟩ := consLoop_spec env n.toNat (n.toNat - i) h.ordered
      refine ⟨h1, ?_⟩
      rw [committed_snoc, taken_snoc]
      show (taken tr ++ (consoleread env n i s.cons).2.1).map Item.value ++
        (consoleread env n i s.cons).1.pending = committed tr ++ []
      rw [append_nil, ← h.bytes, map_append, append_assoc]
      exact congrArg ((taken tr).map Item.value ++ ·) h2.symm

variable {data : Fin inputBufSize → UInt8} {k : BitVec 32} {tr : List (Key × Moved)} {s : Tty}

theorem Tty.inv_run (h : Run Tty.Step (.init data k) tr s) : s.Inv tr := by
  refine h.inv (I := fun tr s => s.Inv tr) ⟨⟨?_, ?_⟩, contents_eq_nil rfl⟩ fun _ _ _ _ => inv_step
  · have h0 : (Tty.init data k).cons.len = 0 := Ring.len_eq_zero.mpr rfl
    have h1 : (Tty.init data k).cons.done.len = 0 := Ring.len_eq_zero.mpr rfl
    have h2 : (Tty.init data k).cons.edit.len = 0 := Ring.len_eq_zero.mpr rfl
    rw [h0, h1, h2]
  · rw [Ring.len_eq_zero.mpr rfl]
    exact Nat.zero_le _

theorem received_eq (h : Run (Where (fun _ l => l.1.Copies) Tty.Step) (.init data k) tr s) :
    (taken tr).filterMap Item.received = (taken tr).map Item.value := by
  refine h.inv (I := fun tr _ => (taken tr).filterMap Item.received = (taken tr).map Item.value)
    rfl ?_
  rintro tr s ⟨e, io⟩ s' ih ⟨hok, hs⟩
  rw [taken_snoc, filterMap_append, map_append, ih]
  congr 1
  unfold Tty.Step Tty.act at hs
  cases e with
  | intr ch =>
    cases hs
    rfl
  | read t n =>
    simp only at hs
    split at hs <;> cases hs
    rfl
  | segment t env =>
    simp only at hs
    split at hs
    · cases hs
    · cases hs
      exact consLoop_received hok ..

/-- **Console input is delivered exactly once**, as long as no copy to user memory fails: the
counters are in order, the handler takes no committed byte back, and what readers have got, with
`^D` for an end of file, followed by `buf[r..w)`, is what has been committed. -/
theorem console_delivers_once
    (h : Run (Where (fun _ l => l.1.Copies) Tty.Step) (.init data k) tr s) :
    ((s.cons.w - s.cons.nread).toNat + (s.cons.nwrite - s.cons.w).toNat =
      (s.cons.nwrite - s.cons.nread).toNat ∧
      (s.cons.nwrite - s.cons.nread).toNat ≤ inputBufSize) ∧
    (∀ ch, s.cons.pending <+: (consoleintr s.cons ch).1.pending) ∧
      (taken tr).filterMap Item.received ++ s.cons.pending = committed tr := by
  have hinv := Tty.inv_run (h.mono fun _ _ _ hs => hs.2)
  refine ⟨⟨hinv.ordered.split, hinv.ordered.le⟩, fun ch => ?_, ?_⟩
  · rw [(consoleintr_spec hinv.ordered ch).2]
    exact prefix_append ..
  · rw [received_eq h]
    exact hinv.bytes

/-- A line with an erased character and an end of file; the counters wrap. -/
def lineRun : List (Key × Moved) :=
  let env : Env := ⟨fun _ => false, fun _ => none, fun _ => true⟩
  [(.read 0 9, {}), (.segment 0 env, {}), (.intr 97, {}), (.intr 98, {}), (.intr 127, {}),
    (.intr 13, { committed := [97, 10] }),
    (.segment 0 env, { taken := [.byte 97, .byte 10], result := some 2 }),
    (.intr 4, { committed := [4] }),
    (.read 1 3, {}), (.segment 1 env, { taken := [.eof], result := some 0 })]

theorem console_delivers_once_line : ∃ s,
    Run (Where (fun _ l => l.1.Copies) Tty.Step) (.init (fun _ => 0) 0xffffffff) lineRun s ∧
      (taken lineRun).filterMap Item.received ++ s.cons.pending = committed lineRun := by
  have h : ∃ s, Run (Where (fun _ l => l.1.Copies) Tty.Step) (.init (fun _ => 0) 0xffffffff)
      lineRun s :=
    ⟨_, .cons ⟨trivial, rfl⟩ (.cons ⟨fun _ => rfl, rfl⟩ (.cons ⟨trivial, rfl⟩ (.cons ⟨trivial, rfl⟩
      (.cons ⟨trivial, rfl⟩ (.cons ⟨trivial, rfl⟩ (.cons ⟨fun _ => rfl, rfl⟩ (.cons ⟨trivial, rfl⟩
        (.cons ⟨trivial, rfl⟩ (.cons ⟨fun _ => rfl, rfl⟩ .nil)))))))))⟩
  obtain ⟨s, h⟩ := h
  exact ⟨s, h, (console_delivers_once h).2.2⟩

/-- The line `a` is read into memory that cannot be written. -/
def badRun : List (Key × Moved) :=
  let env : Env := ⟨fun _ => false, fun _ => none, fun _ => false⟩
  [(.intr 97, {}), (.intr 10, { committed := [97, 10] }), (.read 0 2, {}),
    (.segment 0 env, { taken := [.lost 97], result := some 0 })]

theorem console_loses_byte : ∃ s, Run Tty.Step (.init (fun _ => 0) 0) badRun s ∧
    s.cons.pending = [10] ∧
    (taken badRun).filterMap Item.received = [] ∧ committed badRun = [97, 10] := by
  refine ⟨_, .cons rfl (.cons rfl (.cons rfl (.cons rfl .nil))), ?_, rfl, rfl⟩
  decide

end Xv6.Ipc
