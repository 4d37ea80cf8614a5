/-
  A pipe is a channel: the bytes delivered, followed by those in the buffer, are the bytes
  accepted. A segment of `pipewrite` appends to the buffer what it accepts, a segment of
  `piperead` takes from its front what it delivers, and neither lets it outgrow the array.
-/
import Xv6.Ipc.Pipe

namespace Xv6.Ipc

open Lib Ring

variable {p : Pipe} {env : Env}

theorem put_contents (ch : UInt8) (h : p.len < pipeSize) :
    (p.put ch).contents = p.contents ++ [ch] :=
  contents_push (by decide) (by decide) ch h

theorem put_len (ch : UInt8) (h : p.len < pipeSize) : (p.put ch).len = p.len + 1 := by
  refine len_push ch ?_
  have : pipeSize < 2 ^ 32 := by decide
  omega

theorem take_contents (h : p.nread ≠ p.nwrite) : p.contents = p.head :: p.take.contents :=
  contents_pop fun h0 => h (Ring.len_eq_zero.mp h0)

theorem take_len (h : p.nread ≠ p.nwrite) : p.take.len = p.len - 1 :=
  len_pop fun h0 => h (Ring.len_eq_zero.mp h0)

/-- The test for a full pipe. -/
theorem len_of_not_full (hlen : p.len ≤ pipeSize)
    (h : p.nwrite ≠ p.nread + BitVec.ofNat 32 pipeSize) : p.len < pipeSize := by
  refine Nat.lt_of_le_of_ne hlen fun heq => h ?_
  exact (len_eq_iff (by decide)).mp heq

/-! ## Segments -/

/-- What a segment of `pipewrite` does to the buffer. -/
theorem writeLoop_spec (env : Env) (m i : ℕ) (hlen : p.len ≤ pipeSize) :
    (writeLoop env m i p).1.len ≤ pipeSize ∧
      (writeLoop env m i p).1.contents = p.contents ++ (writeLoop env m i p).2.1 := by
  induction m generalizing i p with
  | zero => exact ⟨hlen, (List.append_nil _).symm⟩
  | succ m ih =>
    have hsame : p.len ≤ pipeSize ∧ p.contents = p.contents ++ [] :=
      ⟨hlen, (List.append_nil _).symm⟩
    unfold writeLoop
    split
    · exact hsame
    · split
      · exact hsame
      · rename_i hfull
        have hlt := len_of_not_full hlen hfull
        cases env.copyin i with
        | none => exact hsame
        | some ch =>
          obtain ⟨h1, h2⟩ := ih (p := p.put ch) (i + 1) (by rw [put_len ch hlt]; omega)
          refine ⟨h1, h2.trans ?_⟩
          rw [put_contents ch hlt, List.append_assoc]
          rfl

/-- What a segment of `pipewrite` accepts is what `copyin` delivers, byte by byte, and its end
    counts these bytes unless it gives up. -/
theorem writeLoop_count (env : Env) (m i : ℕ) (p : Pipe) :
    (∀ k < (writeLoop env m i p).2.1.length,
      (writeLoop env m i p).2.1[k]? = env.copyin (i + k)) ∧
    ((writeLoop env m i p).2.2 = .ret (-1) ∨
      (writeLoop env m i p).2.2 = .ret (i + (writeLoop env m i p).2.1.length : ℕ) ∨
      (writeLoop env m i p).2.2 = .sleep (i + (writeLoop env m i p).2.1.length)) := by
  induction m generalizing i p with
  | zero => exact ⟨fun _ hk => absurd hk (Nat.not_lt_zero _), .inr (.inl rfl)⟩
  | succ m ih =>
    unfold writeLoop
    split
    · exact ⟨fun _ hk => absurd hk (Nat.not_lt_zero _), .inl rfl⟩
    split
    · exact ⟨fun _ hk => absurd hk (Nat.not_lt_zero _), .inr (.inr rfl)⟩
    cases hch : env.copyin i with
    | none => exact ⟨fun _ hk => absurd hk (Nat.not_lt_zero _), .inr (.inl rfl)⟩
    | some ch =>
      obtain ⟨hbytes, hend⟩ := ih (i + 1) (p.put ch)
      dsimp only
      generalize writeLoop env m (i + 1) (p.put ch) = w at hbytes hend ⊢
      refine ⟨fun k hk => ?_, ?_⟩
      · cases k with
        | zero => exact hch.symm
        | succ k =>
          rw [← Nat.add_assoc, Nat.add_right_comm]
          exact hbytes k (Nat.lt_of_succ_lt_succ hk)
      · show w.2.2 = .ret (-1) ∨ w.2.2 = .ret (i + (w.2.1.length + 1) : ℕ) ∨
          w.2.2 = .sleep (i + (w.2.1.length + 1))
        rwa [Nat.add_comm w.2.1.length, ← Nat.add_assoc]

/-- What the loop of `piperead` does to the buffer. -/
theorem readLoop_spec (m i : ℕ) (hlen : p.len ≤ pipeSize) : (readLoop env m i p).1.len ≤ pipeSize ∧
      (readLoop env m i p).2.1 ++ (readLoop env m i p).1.contents = p.contents := by
  induction m generalizing i p with
  | zero => exact ⟨hlen, rfl⟩
  | succ m ih =>
    unfold readLoop
    split
    · exact ⟨hlen, rfl⟩
    · rename_i hne
      split
      · obtain ⟨h1, h2⟩ := ih (p := p.take) (i + 1) (by rw [take_len hne]; omega)
        refine ⟨h1, ?_⟩
        rw [take_contents hne, ← h2]
        rfl
      · exact ⟨hlen, rfl⟩

theorem piperead_spec (env : Env) (n : ℤ) (hlen : p.len ≤ pipeSize) :
    (piperead env n p).1.len ≤ pipeSize ∧
      (piperead env n p).2.1 ++ (piperead env n p).1.contents = p.contents := by
  unfold piperead
  split
  · split <;> exact ⟨hlen, rfl⟩
  · exact readLoop_spec n.toNat 0 hlen

/-- The result of a read that ends counts the bytes it has delivered, unless it is -1. -/
theorem readLoop_count (env : Env) (m i : ℕ) (p : Pipe) :
    (readLoop env m i p).2.2 = .ret (-1) ∨
      (readLoop env m i p).2.2 = .ret (i + (readLoop env m i p).2.1.length : ℕ) := by
  induction m generalizing i p with
  | zero => exact .inr rfl
  | succ m ih =>
    unfold readLoop
    split
    · exact .inr rfl
    split
    · have hend := ih (i + 1) p.take
      generalize readLoop env m (i + 1) p.take = w at hend ⊢
      show w.2.2 = .ret (-1) ∨ w.2.2 = .ret (i + (w.2.1.length + 1) : ℕ)
      rwa [Nat.add_comm w.2.1.length, ← Nat.add_assoc]
    · split
      · exact .inl rfl
      · exact .inr rfl

theorem piperead_count (env : Env) (n : ℤ) (p : Pipe) {r : ℤ}
    (h : (piperead env n p).2.2 = .ret r) : r = -1 ∨ r = (piperead env n p).2.1.length := by
  unfold piperead at h ⊢
  split at h
  · split at h <;> cases h
    exact .inl rfl
  · rename_i hwait
    rw [if_neg hwait]
    have hend := readLoop_count env n.toNat 0 p
    rw [h, Nat.zero_add] at hend
    exact hend.imp Outcome.ret.inj Outcome.ret.inj

/-- The result counts up from `i`, so it is 0 only when nothing was delivered. -/
theorem readLoop_pos (m i : ℕ) (hi : 0 < i) : (readLoop env m i p).2.2 ≠ .ret 0 := by
  induction m generalizing i p with
  | zero =>
    intro h
    have : (i : ℤ) = 0 := Outcome.ret.inj h
    omega
  | succ m ih =>
    have hret : Outcome.ret (i : ℤ) ≠ .ret 0 := by
      intro h
      have : (i : ℤ) = 0 := Outcome.ret.inj h
      omega
    unfold readLoop
    split
    · exact hret
    · split
      · exact ih (i + 1) (Nat.succ_pos i)
      · rw [if_neg (by omega)]
        exact hret

/-- `piperead` returns 0 only when the pipe is empty and has no writer. -/
theorem piperead_zero {n : ℤ} (hn : 0 < n) (h : (piperead env n p).2.2 = .ret 0) :
    (piperead env n p).1 = p ∧ p.nread = p.nwrite ∧ p.writeopen = false := by
  obtain ⟨m, hm⟩ : ∃ m, n.toNat = m + 1 := ⟨n.toNat - 1, by omega⟩
  unfold piperead at h ⊢
  split at h
  · split at h <;> cases h
  · rename_i hwait
    rw [if_neg hwait]
    rw [hm] at h ⊢
    unfold readLoop at h ⊢
    by_cases hempty : p.nread = p.nwrite
    · rw [if_pos hempty]
      refine ⟨rfl, hempty, ?_⟩
      rw [← Bool.not_eq_true]
      exact fun hw => hwait ⟨hempty, hw⟩
    · rw [if_neg hempty] at h
      split at h
      · exact absurd h (readLoop_pos m 1 Nat.one_pos)
      · exact absurd h (by simp)

/-! ## Runs -/

/-- The buffer fits, and it is what has been accepted and not yet delivered. -/
def Inv (tr : List (Event × Io)) (s : State) : Prop :=
  s.pipe.len ≤ pipeSize ∧ delivered tr ++ s.pipe.contents = accepted tr

theorem accepted_snoc (tr : List (Event × Io)) (l : Event × Io) :
    accepted (tr ++ [l]) = accepted tr ++ l.2.accepted := by
  simp [accepted]

theorem delivered_snoc (tr : List (Event × Io)) (l : Event × Io) :
    delivered (tr ++ [l]) = delivered tr ++ l.2.delivered := by
  simp [delivered]

variable {tr : List (Event × Io)}

/-- A step that moves no bytes and leaves the buffer alone. -/
theorem Inv.quiet {s s' : State} {e : Event} (h : Inv tr s)
    (hp : s'.pipe.toRing = s.pipe.toRing) : Inv (tr ++ [(e, ({} : Io))]) s' := by
  unfold Inv at h ⊢
  rw [accepted_snoc, delivered_snoc, hp]
  simpa using h

theorem inv_step {s s' : State} {l : Event × Io} (h : Inv tr s)
    (hs : Step s l s') : Inv (tr ++ [l]) s' := by
  obtain ⟨e, io⟩ := l
  unfold Step act at hs
  split at hs
  · cases hs
  · cases e with
    | write t n | read t n =>
      simp only at hs
      split at hs <;> cases hs
      exact h.quiet rfl
    | close w =>
      cases hs
      refine h.quiet ?_
      unfold pipeclose
      cases w <;> rfl
    | segment t env =>
      simp only at hs
      split at hs
      · cases hs
      · rename_i n i _
        cases hs
        obtain ⟨h1, h2⟩ := writeLoop_spec env (n.toNat - i) i h.1
        refine ⟨h1, ?_⟩
        rw [accepted_snoc, delivered_snoc]
        rw [List.append_nil, ← h.2, List.append_assoc]
        exact congrArg (delivered tr ++ ·) h2
      · rename_i n _
        cases hs
        obtain ⟨h1, h2⟩ := piperead_spec env n h.1
        refine ⟨h1, ?_⟩
        rw [accepted_snoc, delivered_snoc]
        rw [List.append_nil, List.append_assoc, h2]
        exact h.2

theorem inv_run {data : Fin pipeSize → UInt8} {s : State}
    (h : Run Step (init data) tr s) : Inv tr s := by
  refine h.inv (I := Inv) ⟨?_, contents_eq_nil rfl⟩ fun _ _ _ _ => inv_step
  rw [Ring.len_eq_zero.mpr rfl]
  exact Nat.zero_le _

/-- **A pipe is a channel.** The counters never differ by more than the size of the array, the
    bytes delivered and buffered are the bytes accepted, which are those that `copyin` delivers,
    and the results count them. End of file is seen only at the end. -/
theorem pipe_channel {data : Fin pipeSize → UInt8} {tr : List (Event × Io)} {s : State}
    (h : Run Step (init data) tr s) :
    (s.pipe.nwrite - s.pipe.nread).toNat ≤ pipeSize ∧
      delivered tr ++ s.pipe.contents = accepted tr ∧
      (∀ t env n i io s', s.call t = .write n i → Step s (.segment t env, io) s' →
        (∀ k < io.accepted.length, io.accepted[k]? = env.copyin (i + k)) ∧
        (io.result = some (-1) ∨ io.result = some ((i + io.accepted.length : ℕ) : ℤ) ∨
          io.result = none ∧ s'.call t = .write n (i + io.accepted.length))) ∧
      ∀ t env n io s', s.call t = .read n → Step s (.segment t env, io) s' →
        (∀ r, io.result = some r → r = -1 ∨ r = io.delivered.length) ∧
        (0 < n → io.result = some 0 →
          s'.pipe.nread = s'.pipe.nwrite ∧ s'.pipe.writeopen = false) := by
  obtain ⟨hlen, hbytes⟩ := inv_run h
  refine ⟨hlen, hbytes, ?_, ?_⟩
  · intro t env n i io s' hcall hs
    unfold Step act at hs
    split at hs
    · cases hs
    · simp only [hcall] at hs
      cases hs
      obtain ⟨hbytes, hend⟩ := writeLoop_count env (n.toNat - i) i s.pipe
      refine ⟨hbytes, ?_⟩
      unfold pipewrite
      dsimp only
      rw [Function.update_self]
      generalize writeLoop env (n.toNat - i) i s.pipe = w at hend ⊢
      rcases hend with hend | hend | hend
      · exact .inl (by rw [hend]; rfl)
      · exact .inr (.inl (by rw [hend]; rfl))
      · exact .inr (.inr (by rw [hend]; exact ⟨rfl, rfl⟩))
  · intro t env n io s' hcall hs
    unfold Step act at hs
    split at hs
    · cases hs
    · simp only [hcall] at hs
      cases hs
      have hret : ∀ {r}, (piperead env n s.pipe).2.2.result = some r →
          (piperead env n s.pipe).2.2 = .ret r := by
        intro r hr
        cases ho : (piperead env n s.pipe).2.2 with
        | sleep i =>
          rw [ho] at hr
          cases hr
        | ret x =>
          rw [ho] at hr
          rw [Option.some.inj hr]
      refine ⟨fun r hr => piperead_count env n s.pipe (hret hr), fun hn hr => ?_⟩
      obtain ⟨h1, h2, h3⟩ := piperead_zero hn (hret hr)
      rw [h1]
      exact ⟨h2, h3⟩

/-- A run of the events of `es`, with what they move. -/
def trace (s : State) : List Event → Option (State × List (Event × Io))
  | [] => some (s, [])
  | e :: es => (act s e).bind fun x => (trace x.1 es).map fun y => (y.1, (e, x.2) :: y.2)

theorem run_of_trace {es : List Event} {s s' : State} (h : trace s es = some (s', tr)) :
    Run Step s tr s' := by
  induction es generalizing s tr with
  | nil =>
    cases h
    exact .nil
  | cons e es ih =>
    obtain ⟨x, hx, h⟩ := Option.bind_eq_some_iff.mp h
    obtain ⟨y, hy, h⟩ := Option.map_eq_some_iff.mp h
    cases h
    exact .cons hx (ih hy)

/-- Two writers and a reader. The first writer fills the pipe and sleeps, and so does the second
    one; the reader takes two bytes before its third copy fails; the second writer adds one byte
    before its next copy fails, and the first one goes on with the room that is left. -/
def fullRun : List Event :=
  let first : Env := ⟨fun _ => false, fun i => some (UInt8.ofNat i), fun _ => true⟩
  let second : Env := ⟨fun _ => false, fun i => if i = 0 then some 97 else none, fun _ => true⟩
  let reader : Env := ⟨fun _ => false, fun _ => none, fun i => i < 2⟩
  [.write 0 600, .segment 0 first, .write 1 2, .segment 1 second, .read 2 3, .segment 2 reader,
    .segment 1 second, .segment 0 first]

theorem pipe_channel_fullRun :
    ∃ s tr, trace (init fun _ => 5) fullRun = some (s, tr) ∧
      tr.map (fun l => l.2.result) = [none, none, none, none, none, some 2, some 1, none] ∧
      s.call 0 = .write 600 513 ∧ delivered tr = [0, 1] ∧
      (accepted tr).drop 510 = [254, 255, 97, 0] ∧
      (s.pipe.nwrite - s.pipe.nread).toNat ≤ pipeSize ∧
      delivered tr ++ s.pipe.contents = accepted tr := by
  have hx : (trace (init fun _ => 5) fullRun).map (fun x => (x.2.map fun l => l.2.result,
      x.1.call 0, delivered x.2, (accepted x.2).drop 510)) =
      some ([none, none, none, none, none, some 2, some 1, none], .write 600 513, [0, 1],
        [254, 255, 97, 0]) := by
    decide +kernel
  obtain ⟨⟨s, tr⟩, h, hx⟩ := Option.map_eq_some_iff.mp hx
  simp only [Prod.mk.injEq] at hx
  obtain ⟨hres, hcall, hdel, hacc⟩ := hx
  have hchan := pipe_channel (run_of_trace h)
  exact ⟨s, tr, h, hres, hcall, hdel, hacc, hchan.1, hchan.2.1⟩

end Xv6.Ipc
