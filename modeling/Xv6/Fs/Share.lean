/-
  Writers that share an open file: `filewrite` of `kernel/file.c` on a regular file.

  Any number of threads are in `filewrite` with one `struct file`. A call writes chunks of at most
  `maxChunk` bytes. For each of them it takes the inode lock, calls `writei` at the offset of the
  file, advances the offset and releases the lock. These are the steps; they interleave with those
  of the other threads and with what the rest of the system does to other inodes. The transaction
  around a chunk can only delay it, and is left out.
-/
import Xv6.Param
import Xv6.Fs.Bytes

namespace Xv6.Fs

open Lib Act Function List

/-! ## The code -/

/-- `max`, the bytes of one chunk: `((MAXOPBLOCKS-1-1-2) / 2) * BSIZE`. -/
def maxChunk : ℕ := (maxOpBlocks - 1 - 1 - 2) / 2 * bSize

/-- Where a call of `filewrite` is. -/
inductive WritePc where
  /-- At the test of the loop. -/
  | top
  | locked
  /-- `writei` has returned; none for -1. -/
  | wrote (r : Option ℕ)
  | advanced (r : Option ℕ)
  /-- Out of the loop by `break`. -/
  | broken

structure WriteCall where
  /-- The bytes at `addr`. -/
  src : ℕ → UInt8
  n : ℤ
  i : ℕ
  pc : WritePc

/-- `n1`. -/
def WriteCall.chunk (c : WriteCall) : ℕ := min (c.n - c.i).toNat maxChunk

/-- The thread holds the inode lock. -/
def WriteCall.inside (c : WriteCall) : Bool :=
  match c.pc with
  | .locked | .wrote _ | .advanced _ => true
  | .top | .broken => false

/-- A call of `writei`. -/
structure Chunk where
  thread : ℕ
  off : ℕ
  bytes : List UInt8
  result : Option ℕ
  deriving DecidableEq

/-- What a step shows. -/
structure Shown where
  /-- Who takes the inode lock. -/
  locks : List ℕ := []
  chunks : List Chunk := []
  /-- `n` and the result of a call that ends. -/
  rets : List (ℤ × ℤ) := []
  deriving DecidableEq

/-- The next step of thread `t` in its call, with the answers of `either_copyin`. -/
def WriteCall.go (sb : Super) (ip : Ptr) (t : ℕ) (copy : ℕ → Option ℕ) (s : Store) (off : ℕ)
    (c : WriteCall) :
    Option (Store × ℕ × WriteCall × Shown) :=
  match c.pc with
  | .top =>
    if c.i < c.n then
      match ilock ip s with
      | .ok (_, s) => some (s, off, { c with pc := .locked }, { locks := [t] })
      | .error _ => none
    else none
  | .locked =>
    match writei sb ip (fun j => c.src (c.i + j)) copy off c.chunk s with
    | .ok (r, s) => some (s, off, { c with pc := .wrote r },
        { chunks := [⟨t, off, (List.range c.chunk).map fun j => c.src (c.i + j), r⟩] })
    | .error _ => none
  | .wrote r =>
    some (s, if 0 < r.getD 0 then (off + r.getD 0) % 2 ^ 32 else off, { c with pc := .advanced r },
      {})
  | .advanced r =>
    match iunlock ip s with
    | .ok (_, s) => some (s, off,
        if r = some c.chunk then { c with i := c.i + c.chunk, pc := .top } else
          { c with pc := .broken }, {})
    | .error _ => none
  | .broken => none

/-- What a call returns once it is out of the loop. -/
def WriteCall.ret (c : WriteCall) : Option ℤ :=
  match c.pc with
  | .top => if c.i < c.n then none else some (if c.i = c.n then c.n else -1)
  | .broken => some (if c.i = c.n then c.n else -1)
  | _ => none

/-- The file system, `f->off`, and the call that a thread is in. -/
structure Shared where
  store : Store
  off : ℕ
  call : ℕ → Option WriteCall

inductive WriteEvent where
  | call (t : ℕ) (src : ℕ → UInt8) (n : ℤ)
  | go (t : ℕ) (copy : ℕ → Option ℕ)
  | ret (t : ℕ)
  /-- Another part of the system. -/
  | other

def Shared.act (sb : Super) (ip : Ptr) (s : Shared) : WriteEvent → Option (Shared × Shown)
  | .call t src n =>
    if (s.call t).isNone then some ({ s with call := update s.call t (some ⟨src, n, 0, .top⟩) }, {})
    else none
  | .go t copy =>
    match s.call t with
    | none => none
    | some c => (c.go sb ip t copy s.store s.off).map fun r =>
        (⟨r.1, r.2.1, update s.call t (some r.2.2.1)⟩, r.2.2.2)
  | .ret t =>
    match s.call t with
    | none => none
    | some c => c.ret.map fun r => ({ s with call := update s.call t none }, { rets := [(c.n, r)] })
  | .other => none

/-- What others do: the file stays as it is and in use; the inode lock may be taken and released
while no writer holds it. -/
structure Elsewhere (H : ℕ → Prop) (sb : Super) (ip : Ptr) (s s' : Shared) : Prop where
  wf : WfOn H sb none s'.store
  valid : s'.store.Valid ip
  inum : (s'.store.inode ip).inum = (s.store.inode ip).inum
  node : s'.store.node (s.store.inode ip).inum = s.store.node (s.store.inode ip).inum
  lock : ∀ t c, s.call t = some c → c.inside = true →
    (s'.store.inode ip).locked = (s.store.inode ip).locked
  off : s'.off = s.off
  call : s'.call = s.call

def Shared.Step (H : ℕ → Prop) (sb : Super) (ip : Ptr) (s : Shared) (l : WriteEvent × Shown)
    (s' : Shared) : Prop :=
  match l.1 with
  | .other => Elsewhere H sb ip s s' ∧ l.2 = {}
  | e => s.act sb ip e = some (s', l.2)

def Shared.init (s : Store) (off : ℕ) : Shared := ⟨s, off, fun _ => none⟩

/-! ## Histories -/

/-- Who took the inode lock, in order. -/
def locks (tr : List (WriteEvent × Shown)) : List ℕ := tr.flatMap fun l => l.2.locks

/-- The calls of `writei`, in order. -/
def chunks (tr : List (WriteEvent × Shown)) : List Chunk := tr.flatMap fun l => l.2.chunks

/-- `n` and the result of every call that has ended. -/
def rets (tr : List (WriteEvent × Shown)) : List (ℤ × ℤ) := tr.flatMap fun l => l.2.rets

/-- The bytes that thread `t` has been asked to write. -/
def asked (t : ℕ) (tr : List (WriteEvent × Shown)) : List UInt8 :=
  tr.flatMap fun l =>
    match l.1 with
    | .call u src n => if u = t then (List.range n.toNat).map src else []
    | _ => []

/-- The bytes of the chunks of thread `t`. -/
def stream (t : ℕ) (l : List Chunk) : List UInt8 :=
  (l.filter fun ch => ch.thread = t).flatMap Chunk.bytes

/-- How many bytes the chunks have. -/
def total (l : List Chunk) : ℕ := (l.map fun ch => ch.bytes.length).sum

/-- No copy from user memory fails, and `writei` writes all that it is given. -/
def Succeeds (l : WriteEvent × Shown) : Prop :=
  (∀ t copy, l.1 = .go t copy → ∀ k, copy k = none) ∧
  ∀ ch ∈ l.2.chunks, ch.result = some ch.bytes.length

section

variable (tr : List (WriteEvent × Shown)) (l : WriteEvent × Shown)

theorem locks_snoc : locks (tr ++ [l]) = locks tr ++ l.2.locks := by simp [locks]

theorem chunks_snoc : chunks (tr ++ [l]) = chunks tr ++ l.2.chunks := by simp [chunks]

theorem rets_snoc : rets (tr ++ [l]) = rets tr ++ l.2.rets := by simp [rets]

theorem total_append (a b : List Chunk) : total (a ++ b) = total a + total b := by simp [total]

theorem stream_append (t : ℕ) (a b : List Chunk) :
    stream t (a ++ b) = stream t a ++ stream t b := by simp [stream]

end

/-! ## The functions -/

variable {H : ℕ → Prop} {sb : Super} {ip : Ptr} {s s' : Store}

/-- The lock of an inode is taken or released. -/
theorem setLocked_spec (h : WfOn H sb none s) (hv : s.Valid ip) (b : Bool) :
    WfOn H sb none (s.setInode ip fun n => { n with locked := b }) ∧
      (s.setInode ip fun n => { n with locked := b }).Valid ip ∧
      ((s.setInode ip fun n => { n with locked := b }).inode ip).inum = (s.inode ip).inum ∧
      (s.setInode ip fun n => { n with locked := b }).node = s.node := by
  obtain ⟨hw, hn⟩ := Holds.wf_setInode (f := fun n => { n with locked := b }) h hv.1 rfl rfl rfl
  refine ⟨hw, ?_, ?_, hn⟩
  · unfold Store.Valid
    rw [setInode_self]
    exact hv
  · rw [setInode_self]

theorem ilock_free (hv : s.Valid ip) (hl : (s.inode ip).locked = false) :
    ilock ip s = .ok ((), s.setInode ip fun n => { n with locked := true }) := by
  have hpos : ¬ (s.inode ip).ref < 1 := Nat.not_lt.mpr hv.1
  refine wp_eq_ok ?_
  refine wp_read ?_
  rw [if_neg hpos]
  refine wp_seq (wp_read ?_)
  rw [hl]
  refine wp_set.mpr (wp_read ?_)
  rw [setInode_self, if_pos hv.2]
  exact wp_pure.mpr ⟨rfl, rfl⟩

theorem ilock_ok {u : Unit} (hv : s.Valid ip) (h : ilock ip s = .ok (u, s')) :
    (s.inode ip).locked = false ∧ s' = s.setInode ip fun n => { n with locked := true } := by
  cases hl : (s.inode ip).locked with
  | false =>
    rw [ilock_free hv hl] at h
    cases h
    exact ⟨rfl, rfl⟩
  | true =>
    have hstop : wp (ilock ip) (fun _ _ => False) (fun _ => True) s := by
      refine wp_read ?_
      rw [if_neg (Nat.not_lt.mpr hv.1)]
      refine wp_seq (wp_read ?_)
      rw [hl]
      exact wp_stop.mpr trivial
    exact (wp_ok hstop h).elim

theorem iunlock_held (hv : s.Valid ip) (hl : (s.inode ip).locked = true) :
    iunlock ip s = .ok ((), s.setInode ip fun n => { n with locked := false }) := by
  have hpos : ¬ (s.inode ip).ref < 1 := Nat.not_lt.mpr hv.1
  refine wp_eq_ok ?_
  refine wp_read ?_
  rw [hl, decide_eq_false hpos]
  exact wp_modify.mpr ⟨rfl, rfl⟩

/-- A chunk that is written as a whole. -/
theorem writei_whole (h : WfOn H sb none s) (hv : s.Valid ip) (hH : H (s.inode ip).inum)
    {src : ℕ → UInt8}
    {copy : ℕ → Option ℕ} (hcopy : ∀ k, copy k = none) {off n : ℕ} (hn : n < 2 ^ 32)
    (hw : writei sb ip src copy off n s = .ok (some n, s')) :
    WfOn H sb none s' ∧ SameTable s s' ∧ off + n ≤ maxFile * bSize ∧
      ∃ nd, s.node (s.inode ip).inum = some nd ∧
      s'.node (s.inode ip).inum = some (nd.put off n n src) := by
  have hspec : wp (writei sb ip src copy off n) (fun r s' => ∀ c, r = some c → c = n →
      WfOn H sb none s' ∧ SameTable s s' ∧ s'.node = update s.node (s.inode ip).inum
        ((s.node (s.inode ip).inum).map (Node.put off n n src))) (fun _ => False) s := by
    refine writei_spec h hv hH (fun _ c hc => nomatch hc)
      (fun c m s' _ _ _ hm _ _ hw' ht hnode => ?_) hn
    intro c' hc' hcn
    obtain rfl := Option.some.inj hc'
    rw [hm hcopy, hcn] at hnode
    exact ⟨hw', ht, hnode⟩
  obtain ⟨hw', ht, hnode⟩ := wp_ok hspec hw n rfl rfl
  have hv' := (ht.valid ip).mpr hv
  obtain ⟨nd, hnd⟩ : ∃ nd, s.node (s.inode ip).inum = some nd := ⟨_, node_of_valid h hv⟩
  have hnd' := node_of_valid hw' hv'
  have hput : s'.node (s.inode ip).inum = some (nd.put off n n src) := by
    rw [hnode, update_self, hnd]
    rfl
  refine ⟨hw', ht, ?_, nd, hnd, hput⟩
  -- the size after the write is that of a file
  have hin : (s'.inode ip).inum = (s.inode ip).inum := (ht ip).1
  rw [hin, hput] at hnd'
  have hsize : (nd.put off n n src).size = (s'.inode ip).d.size :=
    congrArg Node.size (Option.some.inj hnd')
  have hdv := Store.din_of_valid hw'.uniq hv'
  have hsmall := hw'.small (s'.inode ip).inum (hin ▸ hH) (by rw [hdv]; exact hw'.typed ip hv')
  rw [hdv, ← hsize] at hsmall
  refine Nat.le_trans ?_ hsmall
  show off + n ≤ if nd.size < off + n then off + n else nd.size
  split <;> omega

/-! ## The invariant -/

/-- The bytes of a call that are in its chunks. -/
def WriteCall.written (c : WriteCall) : ℕ :=
  match c.pc with
  | .wrote _ | .advanced _ => c.i + c.chunk
  | _ => c.i

/-- The bytes of a call that are still to be written. -/
def WriteCall.rest (c : WriteCall) : List UInt8 :=
  (List.range (c.n.toNat - c.written)).map fun j => c.src (c.written + j)

/-- The bytes behind `f->off` that a call has written. -/
def WriteCall.ahead (c : WriteCall) : ℕ :=
  match c.pc with
  | .wrote _ => c.chunk
  | _ => 0

/-- The holder of the lock, as long as it has not called `writei`. -/
def WriteCall.waiting (t : ℕ) (c : WriteCall) : List ℕ :=
  match c.pc with
  | .locked => [t]
  | _ => []

/-- A call in a run without failures. -/
structure WriteCall.Ok (c : WriteCall) : Prop where
  result : ∀ r, c.pc = .wrote r ∨ c.pc = .advanced r → r = some c.chunk
  more : c.inside = true → c.i < c.n
  le : c.i ≤ c.n.toNat
  unbroken : c.pc ≠ .broken

/-- What is true of the file while `o` bytes that have been written are not counted in `f->off`, and
`w` has taken the lock and not written. -/
structure Layout (i off₀ : ℕ) (tr : List (WriteEvent × Shown)) (s : Shared) (o : ℕ) (w : List ℕ) :
    Prop where
  off : s.off + o = off₀ + total (chunks tr)
  fits : o = 0 ∨ s.off + o ≤ maxFile * bSize
  order : locks tr = (chunks tr).map Chunk.thread ++ w
  abut : ∀ a ch b, chunks tr = a ++ ch :: b → ch.off = off₀ + total a
  data : ∃ nd, s.store.node i = some nd ∧ ∀ ch ∈ chunks tr, ch.off + ch.bytes.length ≤ nd.size ∧
    (List.range ch.bytes.length).map (fun j => nd.data (ch.off + j)) = ch.bytes

/-- The invariant of a run without failures. -/
structure Shared.Inv (H : ℕ → Prop) (sb : Super) (ip : Ptr) (i off₀ : ℕ)
    (tr : List (WriteEvent × Shown)) (s : Shared) : Prop where
  wf : WfOn H sb none s.store
  valid : s.store.Valid ip
  inum : (s.store.inode ip).inum = i
  ok : ∀ t c, s.call t = some c → c.Ok
  held : ∀ t c, s.call t = some c → c.inside = true → (s.store.inode ip).locked = true
  alone : ∀ t u c d, s.call t = some c → s.call u = some d → c.inside = true → d.inside = true →
    t = u
  layout : (∀ t c, s.call t = some c → c.inside = false) → Layout i off₀ tr s 0 []
  layout_in : ∀ t c, s.call t = some c → c.inside = true → Layout i off₀ tr s c.ahead (c.waiting t)
  bytes : ∀ t, asked t tr = stream t (chunks tr) ++ ((s.call t).map WriteCall.rest).getD []
  rets : ∀ r ∈ rets tr, r.2 = if 0 ≤ r.1 then r.1 else -1

/-! ## Steps -/

section

variable {i off₀ t : ℕ} {tr : List (WriteEvent × Shown)} {a a' : Shared} {c c' : WriteCall} {o : ℕ}
  {w : List ℕ}
  {copy : ℕ → Option ℕ} {l : WriteEvent × Shown}

theorem asked_snoc (t : ℕ) : asked t (tr ++ [l]) = asked t tr ++ asked t [l] := by simp [asked]

theorem Layout.same (h : Layout i off₀ tr a o w) (hoff : a'.off = a.off)
    (hnode : a'.store.node i = a.store.node i) (hl : l.2.locks = []) (hc : l.2.chunks = []) :
    Layout i off₀ (tr ++ [l]) a' o w := by
  have h1 : chunks (tr ++ [l]) = chunks tr := by rw [chunks_snoc, hc, append_nil]
  have h2 : locks (tr ++ [l]) = locks tr := by rw [locks_snoc, hl, append_nil]
  refine ⟨?_, ?_, ?_, ?_, ?_⟩
  · rw [hoff, h1, h.off]
  · rw [hoff]
    exact h.fits
  · rw [h1, h2, h.order]
  · rw [h1]
    exact h.abut
  · rw [h1, hnode]
    exact h.data

/-- The lock is taken. -/
theorem Layout.lock (h : Layout i off₀ tr a 0 []) (hoff : a'.off = a.off)
    (hnode : a'.store.node i = a.store.node i) (hl : l.2.locks = [t]) (hc : l.2.chunks = []) :
    Layout i off₀ (tr ++ [l]) a' 0 [t] := by
  have h1 : chunks (tr ++ [l]) = chunks tr := by rw [chunks_snoc, hc, append_nil]
  refine ⟨?_, .inl rfl, ?_, ?_, ?_⟩
  · rw [hoff, h1, h.off]
  · rw [h1, locks_snoc, hl, h.order, append_nil]
  · rw [h1]
    exact h.abut
  · rw [h1, hnode]
    exact h.data

/-- A list that ends with a new element is cut inside the old part or in front of the new
    element. -/
theorem snoc_eq_append_cons {α : Type} {x y : α} {p q r : List α} (h : p ++ [x] = q ++ y :: r) :
    (q = p ∧ y = x) ∨ ∃ r', p = q ++ y :: r' := by
  rcases eq_nil_or_concat r with rfl | ⟨r', z, rfl⟩
  · obtain ⟨h1, h2⟩ := append_inj' h rfl
    exact .inl ⟨h1.symm, (List.singleton_inj.mp h2).symm⟩
  · refine .inr ⟨r', ?_⟩
    rw [concat_eq_append, ← cons_append, ← append_assoc] at h
    exact (append_inj' h rfl).1

theorem Layout.chunk_le (h : Layout i off₀ tr a o w) {ch : Chunk} (hch : ch ∈ chunks tr) :
    ch.off + ch.bytes.length ≤ off₀ + total (chunks tr) := by
  obtain ⟨p, q, hpq⟩ := append_of_mem hch
  have hlen : total (ch :: q) = ch.bytes.length + total q := by simp [total]
  rw [h.abut p ch q hpq, hpq, total_append, hlen]
  omega

theorem map_overlay_before {n0 k off m : ℕ} {d f : ℕ → UInt8} (h : n0 + k ≤ off) :
    ((List.range k).map fun j => overlay d off m f (n0 + j)) = (List.range k).map fun j =>
      d (n0 + j) := by
  refine map_congr_left fun j hj => if_neg ?_
  have := List.mem_range.mp hj
  omega

theorem map_overlay_self {off m : ℕ} {d f : ℕ → UInt8} :
    ((List.range m).map fun j => overlay d off m f (off + j)) = (List.range m).map f := by
  refine map_congr_left fun j hj => ?_
  have := List.mem_range.mp hj
  unfold overlay
  rw [if_pos (by omega), Nat.add_sub_cancel_left]

/-- The chunk of the holder is written behind the others. -/
theorem Layout.write (h : Layout i off₀ tr a 0 [t]) {n : ℕ} {f : ℕ → UInt8} {r : Option ℕ}
    {nd : Node}
    (hoff : a'.off = a.off) (hfits : a.off + n ≤ maxFile * bSize) (hnd : a.store.node i = some nd)
    (hnd' : a'.store.node i = some (nd.put a.off n n f))
    (hl : l.2.locks = []) (hc : l.2.chunks = [⟨t, a.off, (List.range n).map f, r⟩]) :
    Layout i off₀ (tr ++ [l]) a' n [] := by
  have h1 : chunks (tr ++ [l]) = chunks tr ++ [⟨t, a.off, (List.range n).map f, r⟩] := by
    rw [chunks_snoc, hc]
  have h2 : locks (tr ++ [l]) = locks tr := by rw [locks_snoc, hl, append_nil]
  have hoff0 : a.off = off₀ + total (chunks tr) := h.off
  have hsize : nd.size ≤ (nd.put a.off n n f).size ∧ a.off + n ≤ (nd.put a.off n n f).size := by
    show nd.size ≤ (if nd.size < a.off + n then a.off + n else nd.size) ∧
      a.off + n ≤ if nd.size < a.off + n then a.off + n else nd.size
    split <;> omega
  refine ⟨?_, .inr (hoff ▸ hfits), ?_, ?_, _, hnd', ?_⟩
  · rw [h1, total_append, hoff, hoff0]
    simp [total, Nat.add_assoc]
  · rw [h1, h2, h.order]
    simp
  · intro p ch q hpq
    rw [h1] at hpq
    rcases snoc_eq_append_cons hpq with ⟨rfl, rfl⟩ | ⟨q', hq'⟩
    · exact hoff0
    · exact h.abut p ch q' hq'
  · obtain ⟨nd1, hnd1, hdata⟩ := h.data
    obtain rfl := Option.some.inj (hnd.symm.trans hnd1)
    intro ch hch
    rw [h1] at hch
    rcases List.mem_append.mp hch with hch | hch
    · obtain ⟨hle, hbytes⟩ := hdata ch hch
      exact ⟨Nat.le_trans hle hsize.1, (map_overlay_before (hoff0 ▸ h.chunk_le hch)).trans hbytes⟩
    · obtain rfl := List.mem_singleton.mp hch
      simp only [length_map, length_range]
      exact ⟨hsize.2, map_overlay_self⟩

/-- The offset catches up. -/
theorem Layout.advance (h : Layout i off₀ tr a o []) (hoff : a'.off = a.off + o)
    (hnode : a'.store.node i = a.store.node i) (hl : l.2.locks = []) (hc : l.2.chunks = []) :
    Layout i off₀ (tr ++ [l]) a' 0 [] := by
  have h1 : chunks (tr ++ [l]) = chunks tr := by rw [chunks_snoc, hc, append_nil]
  have h2 : locks (tr ++ [l]) = locks tr := by rw [locks_snoc, hl, append_nil]
  refine ⟨?_, .inl rfl, ?_, ?_, ?_⟩
  · rw [hoff, h1, Nat.add_zero, h.off]
  · rw [h1, h2, h.order]
  · rw [h1]
    exact h.abut
  · rw [h1, hnode]
    exact h.data

theorem WriteCall.outside (h : c.inside = false) (t : ℕ) : c.ahead = 0 ∧ c.waiting t = [] := by
  unfold inside at h
  unfold ahead waiting
  split at h
  · cases h
  · cases h
  · cases h
  · rename_i hpc
    rw [hpc]
    exact ⟨rfl, rfl⟩
  · rename_i hpc
    rw [hpc]
    exact ⟨rfl, rfl⟩

theorem asked_other {e : WriteEvent} {sh : Shown} (h : ∀ u src n, e ≠ .call u src n) :
    asked t [(e, sh)] = [] := by
  cases e with
  | call u src n => exact absurd rfl (h u src n)
  | go | ret | other => rfl

/-- Thread `t` goes on; no other thread is inside. -/
theorem Shared.Inv.set (h : a.Inv H sb ip i off₀ tr) (hc : a.call t = some c)
    (hothers : ∀ u d, u ≠ t → a.call u = some d → d.inside = false)
    (hcall : a'.call = update a.call t (some c')) (hok : c'.Ok)
    (hwf : WfOn H sb none a'.store) (hv : a'.store.Valid ip) (hin : (a'.store.inode ip).inum = i)
    (hheld : c'.inside = true → (a'.store.inode ip).locked = true)
    (hlay : Layout i off₀ (tr ++ [l]) a' c'.ahead (c'.waiting t))
    (hask : ∀ u, asked u [l] = []) (hrets : l.2.rets = [])
    (hother : ∀ u, u ≠ t → stream u l.2.chunks = [])
    (hrest : c.rest = stream t l.2.chunks ++ c'.rest) :
    a'.Inv H sb ip i off₀ (tr ++ [l]) := by
  have hself : a'.call t = some c' := by rw [hcall, update_self]
  have hne : ∀ u, u ≠ t → a'.call u = a.call u := fun u hu => by rw [hcall, update_of_ne hu]
  have hinside : ∀ u d, a'.call u = some d → d.inside = true → u = t := by
    intro u d hd hi
    by_contra hu
    rw [hothers u d hu (hne u hu ▸ hd)] at hi
    cases hi
  refine ⟨hwf, hv, hin, ?_, ?_, ?_, ?_, ?_, ?_, ?_⟩
  · intro u d hd
    by_cases hu : u = t
    · rw [hu, hself] at hd
      cases hd
      exact hok
    · exact h.ok u d (hne u hu ▸ hd)
  · intro u d hd hi
    rw [hinside u d hd hi, hself] at hd
    cases hd
    exact hheld hi
  · intro u v d e hd he hi hj
    rw [hinside u d hd hi, hinside v e he hj]
  · intro hout
    have hc' := c'.outside (hout t c' hself) t
    rwa [hc'.1, hc'.2] at hlay
  · intro u d hd hi
    have hu := hinside u d hd hi
    rw [hu, hself] at hd
    cases hd
    rwa [hu]
  · intro u
    rw [asked_snoc, hask, append_nil, chunks_snoc, stream_append, h.bytes u]
    by_cases hu : u = t
    · rw [hu, hself, hc, append_assoc]
      exact congrArg _ hrest
    · rw [hne u hu, hother u hu, append_nil]
  · rw [rets_snoc, hrets, append_nil]
    exact h.rets

/-- The other threads are outside while one is inside. -/
theorem Shared.Inv.others (h : a.Inv H sb ip i off₀ tr) (hc : a.call t = some c)
    (hi : c.inside = true) :
    ∀ u d, u ≠ t → a.call u = some d → d.inside = false := by
  intro u d hu hd
  by_contra hin
  exact hu (h.alone u t d c hd hc (by simpa using hin) hi)

theorem chunk_lt (c : WriteCall) : c.chunk < 2 ^ 32 := by
  have h : maxChunk < 2 ^ 32 := by decide
  unfold WriteCall.chunk
  omega

theorem WriteCall.chunk_le (h : c.Ok) : c.i + c.chunk ≤ c.n.toNat := by
  have := h.le
  unfold WriteCall.chunk
  omega

section

variable {r : Store × ℕ × WriteCall × Shown}

/-- The state after a step of thread `t`. -/
def Shared.after (a : Shared) (t : ℕ) (r : Store × ℕ × WriteCall × Shown) : Shared :=
  ⟨r.1, r.2.1, update a.call t (some r.2.2.1)⟩

section

variable (h : a.Inv H sb ip i off₀ tr)

include h

theorem Shared.inv_lock (hc : a.call t = some c) (hpc : c.pc = .top)
    (hgo : c.go sb ip t copy a.store a.off = some r) :
    (a.after t r).Inv H sb ip i off₀ (tr ++ [(.go t copy, r.2.2.2)]) := by
  unfold WriteCall.go at hgo
  rw [hpc] at hgo
  dsimp only at hgo
  split at hgo
  · next hlt =>
    cases hl : ilock ip a.store with
    | error e =>
      rw [hl] at hgo
      cases hgo
    | ok p =>
      rw [hl] at hgo
      cases hgo
      obtain ⟨hfree, hp⟩ := ilock_ok h.valid hl
      -- nobody is inside, as the lock was free
      have hout : ∀ u d, a.call u = some d → d.inside = false := by
        intro u d hd
        by_contra hin
        rw [h.held u d hd (by simpa using hin)] at hfree
        cases hfree
      obtain ⟨hw, hv, hi, hn⟩ := setLocked_spec h.wf h.valid true
      rw [← hp] at hw hv hi hn
      refine h.set hc (fun u d _ hd => hout u d hd) rfl ?_ hw hv (hi.trans h.inum) (fun _ => ?_) ?_
        (fun _ => rfl)
        rfl (fun _ _ => rfl) ?_
      · exact ⟨fun x hx => hx.elim nofun nofun, fun _ => hlt, (h.ok t c hc).le, nofun⟩
      · show (p.2.inode ip).locked = true
        rw [hp, setInode_self]
      · exact (h.layout hout).lock rfl (congrFun hn i) rfl rfl
      · simp [WriteCall.rest, WriteCall.written, hpc, stream]
  · cases hgo

theorem Shared.inv_write (hH : H i) (hc : a.call t = some c) (hpc : c.pc = .locked)
    (hgo : c.go sb ip t copy a.store a.off = some r) (hs : Succeeds (.go t copy, r.2.2.2)) :
    (a.after t r).Inv H sb ip i off₀ (tr ++ [(.go t copy, r.2.2.2)]) := by
  have hcok := h.ok t c hc
  have hin : c.inside = true := by rw [WriteCall.inside, hpc]
  have hlay := h.layout_in t c hc hin
  rw [WriteCall.ahead, WriteCall.waiting, hpc] at hlay
  unfold WriteCall.go at hgo
  rw [hpc] at hgo
  dsimp only at hgo
  cases hw : writei sb ip (fun j => c.src (c.i + j)) copy a.off c.chunk a.store with
  | error e =>
    rw [hw] at hgo
    cases hgo
  | ok p =>
    rw [hw] at hgo
    cases hgo
    have hr : p.1 = some c.chunk := by
      have := hs.2 _ mem_cons_self
      simpa using this
    have hw' : writei sb ip (fun j => c.src (c.i + j)) copy a.off c.chunk a.store = .ok
        (some c.chunk, p.2) := by
      rw [hw, ← hr]
    obtain ⟨hwf, ht, hfits, nd, hnd, hput⟩ :=
      writei_whole h.wf h.valid (h.inum ▸ hH) (hs.1 t copy rfl) (chunk_lt c) hw'
    rw [h.inum] at hnd hput
    refine h.set hc (h.others hc hin) rfl ?_ hwf ((ht.valid ip).mpr h.valid)
      ((ht ip).1.trans h.inum) (fun _ => ?_)
      ?_ (fun _ => rfl) rfl (fun u hu => ?_) ?_
    · refine ⟨fun x hx => ?_, fun _ => hcok.more hin, hcok.le, nofun⟩
      rcases hx with hx | hx
      · cases hx
        exact hr
      · cases hx
    · exact (ht ip).2.2.2.trans (h.held t c hc hin)
    · exact hlay.write rfl hfits hnd hput rfl rfl
    · simp [stream, Ne.symm hu]
    · have hle := WriteCall.chunk_le hcok
      have hsum : c.n.toNat - c.i = c.chunk + (c.n.toNat - (c.i + c.chunk)) := by omega
      simp only [WriteCall.rest, WriteCall.written, hpc, stream, hsum]
      rw [← range_map_add]
      simp [WriteCall.chunk, Nat.add_assoc]

theorem Shared.inv_advance (hc : a.call t = some c) {x : Option ℕ} (hpc : c.pc = .wrote x)
    (hgo : c.go sb ip t copy a.store a.off = some r) :
    (a.after t r).Inv H sb ip i off₀ (tr ++ [(.go t copy, r.2.2.2)]) := by
  have hcok := h.ok t c hc
  have hin : c.inside = true := by rw [WriteCall.inside, hpc]
  have hlay := h.layout_in t c hc hin
  rw [WriteCall.ahead, WriteCall.waiting, hpc] at hlay
  obtain rfl : x = some c.chunk := hcok.result x (.inl hpc)
  unfold WriteCall.go at hgo
  rw [hpc] at hgo
  cases hgo
  refine h.set hc (h.others hc hin) rfl ?_ h.wf h.valid h.inum (fun _ => h.held t c hc hin) ?_
    (fun _ => rfl) rfl
    (fun _ _ => rfl) ?_
  · refine ⟨fun x hx => ?_, fun _ => hcok.more hin, hcok.le, nofun⟩
    rcases hx with hx | hx
    · cases hx
    · cases hx
      rfl
  · refine hlay.advance ?_ rfl rfl rfl
    -- the file is too small for the offset to wrap
    show (if 0 < c.chunk then (a.off + c.chunk) % 2 ^ 32 else a.off) = a.off + c.chunk
    have hM : maxFile * bSize = 274432 := rfl
    have hf := hlay.fits
    dsimp only at hf
    split <;> omega
  · simp [WriteCall.rest, WriteCall.written, hpc, stream, WriteCall.chunk]

theorem Shared.inv_unlock (hc : a.call t = some c) {x : Option ℕ}
    (hpc : c.pc = .advanced x) (hgo : c.go sb ip t copy a.store a.off = some r) :
    (a.after t r).Inv H sb ip i off₀ (tr ++ [(.go t copy, r.2.2.2)]) := by
  have hcok := h.ok t c hc
  have hin : c.inside = true := by rw [WriteCall.inside, hpc]
  have hlay := h.layout_in t c hc hin
  rw [WriteCall.ahead, WriteCall.waiting, hpc] at hlay
  obtain rfl : x = some c.chunk := hcok.result x (.inr hpc)
  unfold WriteCall.go at hgo
  rw [hpc] at hgo
  dsimp only at hgo
  rw [iunlock_held h.valid (h.held t c hc hin), if_pos rfl] at hgo
  cases hgo
  obtain ⟨hw, hv, hi, hn⟩ := setLocked_spec h.wf h.valid false
  refine h.set hc (h.others hc hin) rfl ?_ hw hv (hi.trans h.inum) nofun ?_ (fun _ => rfl) rfl
    (fun _ _ => rfl) ?_
  · exact ⟨fun x hx => hx.elim nofun nofun, nofun, WriteCall.chunk_le hcok, nofun⟩
  · exact hlay.same rfl (congrFun hn i) rfl rfl
  · simp [WriteCall.rest, WriteCall.written, hpc, stream]

theorem Shared.inv_go (hH : H i) (hc : a.call t = some c)
    (hgo : c.go sb ip t copy a.store a.off = some r) (hs : Succeeds (.go t copy, r.2.2.2)) :
    (a.after t r).Inv H sb ip i off₀ (tr ++ [(.go t copy, r.2.2.2)]) := by
  cases hpc : c.pc with
  | top => exact inv_lock h hc hpc hgo
  | locked => exact inv_write h hH hc hpc hgo hs
  | wrote x => exact inv_advance h hc hpc hgo
  | advanced x => exact inv_unlock h hc hpc hgo
  | broken => exact absurd hpc (h.ok t c hc).unbroken

end

end

/-- A call begins. -/
theorem Shared.inv_call (h : a.Inv H sb ip i off₀ tr) (hc : a.call t = none) (src : ℕ → UInt8)
    (n : ℤ) :
    Shared.Inv H sb ip i off₀ (tr ++ [(.call t src n, ({} : Shown))])
      { a with call := update a.call t (some ⟨src, n, 0, .top⟩) } := by
  have hne : ∀ u d, update a.call t (some ⟨src, n, 0, .top⟩) u = some d → d.inside = true →
      a.call u = some d := by
    intro u d hd hi
    by_cases hu : u = t
    · rw [hu, update_self] at hd
      cases hd
      cases hi
    · rwa [update_of_ne hu] at hd
  refine ⟨h.wf, h.valid, h.inum, ?_, ?_, ?_, ?_, ?_, ?_, ?_⟩
  · intro u d hd
    dsimp only at hd
    by_cases hu : u = t
    · rw [hu, update_self] at hd
      cases hd
      exact ⟨fun x hx => hx.elim nofun nofun, nofun, Nat.zero_le _, nofun⟩
    · rw [update_of_ne hu] at hd
      exact h.ok u d hd
  · exact fun u d hd hi => h.held u d (hne u d hd hi) hi
  · exact fun u v d e hd he hi hj => h.alone u v d e (hne u d hd hi) (hne v e he hj) hi hj
  · intro hout
    refine (h.layout fun u d hd => hout u d ?_).same rfl rfl rfl rfl
    have hu : u ≠ t := by
      rintro rfl
      rw [hc] at hd
      cases hd
    exact (update_of_ne hu ..).trans hd
  · exact fun u d hd hi => (h.layout_in u d (hne u d hd hi) hi).same rfl rfl rfl rfl
  · intro u
    rw [asked_snoc, chunks_snoc, append_nil, h.bytes u]
    dsimp only
    by_cases hu : u = t
    · rw [hu, hc, update_self]
      simp [asked, WriteCall.rest, WriteCall.written]
    · rw [update_of_ne hu]
      simp [asked, Ne.symm hu]
  · rw [rets_snoc, append_nil]
    exact h.rets

/-- A call ends. -/
theorem Shared.inv_ret (h : a.Inv H sb ip i off₀ tr) (hc : a.call t = some c) {x : ℤ}
    (hr : c.ret = some x) :
    Shared.Inv H sb ip i off₀ (tr ++ [(.ret t, { rets := [(c.n, x)] })])
      { a with call := update a.call t none } := by
  have hcok := h.ok t c hc
  -- the loop has ended at its test
  obtain ⟨hpc, hge, hx⟩ : c.pc = .top ∧ ¬ (c.i : ℤ) < c.n ∧ x = if c.i = c.n then c.n else -1 := by
    unfold WriteCall.ret at hr
    cases hpc : c.pc with
    | top =>
      rw [hpc] at hr
      dsimp only at hr
      split at hr
      · cases hr
      · next hlt =>
        exact ⟨rfl, hlt, (Option.some.inj hr).symm⟩
    | broken => exact absurd hpc hcok.unbroken
    | locked | wrote | advanced =>
      rw [hpc] at hr
      cases hr
  have hout : c.inside = false := by rw [WriteCall.inside, hpc]
  have hle := hcok.le
  have hne : ∀ u d, update a.call t none u = some d → a.call u = some d := by
    intro u d hd
    by_cases hu : u = t
    · rw [hu, update_self] at hd
      cases hd
    · rwa [update_of_ne hu] at hd
  refine ⟨h.wf, h.valid, h.inum, ?_, ?_, ?_, ?_, ?_, ?_, ?_⟩
  · exact fun u d hd => h.ok u d (hne u d hd)
  · exact fun u d hd => h.held u d (hne u d hd)
  · exact fun u v d e hd he => h.alone u v d e (hne u d hd) (hne v e he)
  · intro hout'
    refine (h.layout fun u d hd => ?_).same rfl rfl rfl rfl
    by_cases hu : u = t
    · rw [hu, hc] at hd
      cases hd
      exact hout
    · exact hout' u d ((update_of_ne hu ..).trans hd)
  · exact fun u d hd hi => (h.layout_in u d (hne u d hd) hi).same rfl rfl rfl rfl
  · intro u
    rw [asked_snoc, asked_other (e := .ret t) nofun, chunks_snoc, append_nil, append_nil, h.bytes u]
    dsimp only
    by_cases hu : u = t
    · have h0 : c.n.toNat - c.i = 0 := by omega
      rw [hu, hc, update_self]
      simp [WriteCall.rest, WriteCall.written, hpc, h0]
    · rw [update_of_ne hu]
  · rw [rets_snoc]
    intro y hy
    rcases List.mem_append.mp hy with hy | hy
    · exact h.rets y hy
    · obtain rfl := List.mem_singleton.mp hy
      rw [hx]
      dsimp only
      split <;> split <;> omega

theorem Shared.inv_other (h : a.Inv H sb ip i off₀ tr) (he : Elsewhere H sb ip a a') :
    a'.Inv H sb ip i off₀ (tr ++ [(.other, ({} : Shown))]) := by
  have hnode : a'.store.node i = a.store.node i := h.inum ▸ he.node
  refine ⟨he.wf, he.valid, he.inum.trans h.inum, ?_, ?_, ?_, ?_, ?_, ?_, ?_⟩
  · rw [he.call]
    exact h.ok
  · rw [he.call]
    exact fun t c hc hi => (he.lock t c hc hi).trans (h.held t c hc hi)
  · rw [he.call]
    exact h.alone
  · rw [he.call]
    exact fun hout => (h.layout hout).same he.off hnode rfl rfl
  · rw [he.call]
    exact fun t c hc hi => (h.layout_in t c hc hi).same he.off hnode rfl rfl
  · intro u
    rw [asked_snoc, asked_other (e := .other) nofun, chunks_snoc, append_nil, append_nil, he.call]
    exact h.bytes u
  · rw [rets_snoc, append_nil]
    exact h.rets

theorem Shared.inv_step (hH : H i) (h : a.Inv H sb ip i off₀ tr) (hok : Succeeds l)
    (hs : a.Step H sb ip l a') :
    a'.Inv H sb ip i off₀ (tr ++ [l]) := by
  obtain ⟨e, sh⟩ := l
  cases e with
  | call t src n =>
    have hs : (if (a.call t).isNone then _ else none) = some (a', sh) := hs
    obtain ⟨hn, hs⟩ := Option.ite_none_right_eq_some.mp hs
    cases hs
    exact inv_call h (Option.isNone_iff_eq_none.mp hn) src n
  | go t copy =>
    have hs : a.act sb ip (.go t copy) = some (a', sh) := hs
    unfold Shared.act at hs
    dsimp only at hs
    cases hc : a.call t with
    | none =>
      rw [hc] at hs
      cases hs
    | some c =>
      rw [hc] at hs
      obtain ⟨r, hr, hs⟩ := Option.map_eq_some_iff.mp hs
      cases hs
      exact inv_go h hH hc hr hok
  | ret t =>
    have hs : a.act sb ip (.ret t) = some (a', sh) := hs
    unfold Shared.act at hs
    dsimp only at hs
    cases hc : a.call t with
    | none =>
      rw [hc] at hs
      cases hs
    | some c =>
      rw [hc] at hs
      obtain ⟨x, hx, hs⟩ := Option.map_eq_some_iff.mp hs
      cases hs
      exact inv_ret h hc hx
  | other =>
    obtain ⟨he, rfl⟩ : Elsewhere H sb ip a a' ∧ sh = {} := hs
    exact inv_other h he

theorem Shared.inv_init {st : Store} (h0 : WfOn H sb none st) (hv : st.Valid ip) (off : ℕ) :
    (Shared.init st off).Inv H sb ip (st.inode ip).inum off [] := by
  obtain ⟨nd, hnd⟩ : ∃ nd, st.node (st.inode ip).inum = some nd := ⟨_, node_of_valid h0 hv⟩
  exact {
    wf := h0
    valid := hv
    inum := rfl
    ok := nofun
    held := nofun
    alone := nofun
    layout := fun _ =>
      ⟨rfl, .inl rfl, rfl, fun a _ _ h => absurd h (by cases a <;> exact nofun), nd, hnd, nofun⟩
    layout_in := nofun
    bytes := fun _ => rfl
    rets := nofun }

/-- How far a call is from its end. -/
def WriteCall.left (c : WriteCall) : ℕ :=
  4 * (c.n.toNat - c.i) +
    match c.pc with
    | .top => 3
    | .locked => 2
    | .wrote _ => 1
    | .advanced _ | .broken => 0

/-- A call that does not wait for the lock returns, or its next step brings it nearer to its end. -/
theorem Shared.Inv.progress (h : a.Inv H sb ip i off₀ tr) (hH : H i) (hc : a.call t = some c)
    (hwait : c.pc = .top → (a.store.inode ip).locked = false) (copy : ℕ → Option ℕ) :
    (∃ x, c.ret = some x) ∨ ∃ r, c.go sb ip t copy a.store a.off = some r ∧
    r.2.2.1.left < c.left := by
  have hcok := h.ok t c hc
  unfold WriteCall.ret WriteCall.go WriteCall.left
  cases hpc : c.pc with
  | top =>
    by_cases hlt : (c.i : ℤ) < c.n
    · refine .inr
        ⟨(a.store.setInode ip fun n => { n with locked := true }, a.off, { c with pc := .locked },
        { locks := [t] }), ?_, Nat.lt_succ_self _⟩
      dsimp only
      rw [if_pos hlt, ilock_free h.valid (hwait hpc)]
    · exact .inl ⟨_, if_neg hlt⟩
  | locked =>
    have hspec : wp (writei sb ip (fun j => c.src (c.i + j)) copy a.off c.chunk) (fun _ _ => True)
        (fun _ => False) a.store :=
      writei_spec h.wf h.valid (h.inum ▸ hH) (fun _ => trivial)
        (fun _ _ _ _ _ _ _ _ _ _ _ _ => trivial) (chunk_lt c)
    obtain ⟨r, s', hw, -⟩ := wp_returns hspec
    refine .inr ⟨(s', a.off, { c with pc := .wrote r },
      { chunks := [⟨t, a.off, (List.range c.chunk).map fun j => c.src (c.i + j), r⟩] }), ?_,
        Nat.lt_succ_self _⟩
    dsimp only
    rw [hw]
  | wrote x => exact .inr ⟨_, rfl, Nat.lt_succ_self _⟩
  | advanced x =>
    have hin : c.inside = true := by rw [WriteCall.inside, hpc]
    refine .inr ⟨(a.store.setInode ip fun n => { n with locked := false }, a.off,
      { c with i := c.i + c.chunk, pc := .top }, {}), ?_, ?_⟩
    · dsimp only
      rw [iunlock_held h.valid (h.held t c hc hin), if_pos (hcok.result x (.inr hpc))]
    · have hmore := hcok.more hin
      have hM : maxChunk = 3072 := rfl
      dsimp only
      unfold WriteCall.chunk
      omega
  | broken => exact absurd hpc hcok.unbroken

/-- **A shared offset loses no data.** Any number of threads write through one `struct file`, in any
interleaving of the steps of `filewrite`, and no write fails. The chunks are written in the order in
which the inode lock was taken, each of them where the one before it ends, and the file has the
bytes of all of them. The offset is behind the last chunk whenever nobody is in a critical section.
A call returns `n` (-1 if that is negative), and the chunks of a thread are the bytes that it was
asked to write. A call that does not wait for the lock can go on, and every step brings it nearer to
its end. -/
theorem shared_offset_loses_nothing {st : Store} (h₀ : WfOn H sb none st) (hv : st.Valid ip)
    (hH : H (st.inode ip).inum)
    (hrun : Run (Where (fun _ l => Succeeds l) (Shared.Step H sb ip)) (.init st off₀) tr a) :
    (∃ w, locks tr = (chunks tr).map Chunk.thread ++ w ∧ w.length ≤ 1) ∧
    (∀ p ch q, chunks tr = p ++ ch :: q → ch.off = off₀ + total p) ∧
    (∃ nd, a.store.node (st.inode ip).inum = some nd ∧ ∀ ch ∈ chunks tr, ch.off + ch.bytes.length ≤
      nd.size ∧
        (List.range ch.bytes.length).map (fun j => nd.data (ch.off + j)) = ch.bytes) ∧
    ((∀ t c, a.call t = some c → c.inside = false) → a.off = off₀ + total (chunks tr)) ∧
    (∀ r ∈ rets tr, r.2 = if 0 ≤ r.1 then r.1 else -1) ∧
    (∀ t, a.call t = none → stream t (chunks tr) = asked t tr) ∧
    ∀ t c, a.call t = some c → (c.pc = .top → (a.store.inode ip).locked = false) → ∀ copy,
      (∃ x, c.ret = some x) ∨ ∃ r, c.go sb ip t copy a.store a.off = some r ∧
      r.2.2.1.left < c.left := by
  have h : a.Inv H sb ip (st.inode ip).inum off₀ tr :=
    hrun.inv (I := fun tr a => a.Inv H sb ip (st.inode ip).inum off₀ tr)
      (Shared.inv_init h₀ hv off₀)
      fun _ _ _ _ h hs => Shared.inv_step hH h hs.1 hs.2
  have hlay : ∃ o w, Layout (st.inode ip).inum off₀ tr a o w ∧ w.length ≤ 1 := by
    by_cases hout : ∀ t c, a.call t = some c → c.inside = false
    · exact ⟨0, [], h.layout hout, Nat.zero_le 1⟩
    · push Not at hout
      obtain ⟨t, c, hc, hin⟩ := hout
      refine ⟨_, _, h.layout_in t c hc (by simpa using hin), ?_⟩
      unfold WriteCall.waiting
      split
      · exact Nat.le_refl 1
      · exact Nat.zero_le 1
  obtain ⟨o, w, hl, hw⟩ := hlay
  refine ⟨⟨w, hl.order, hw⟩, hl.abut, hl.data, fun hout => (h.layout hout).off, h.rets, fun t ht =>
    ?_,
    fun t c hc hwait copy => h.progress hH hc hwait copy⟩
  have hb := h.bytes t
  rw [ht] at hb
  exact (hb.trans (append_nil _)).symm

end

/-! ## Two writers -/

/-- A step that shows the given label. -/
def Shared.fire (sb : Super) (ip : Ptr) (a : Shared) (l : WriteEvent × Shown) : Option Shared :=
  match a.act sb ip l.1 with
  | some (a', sh) => if sh = l.2 then some a' else none
  | none => none

theorem Shared.step_of_fire {a a' : Shared} {l : WriteEvent × Shown}
    (h : a.fire sb ip l = some a') :
    a.Step H sb ip l a' := by
  obtain ⟨e, sh⟩ := l
  have hact : a.act sb ip e = some (a', sh) := by
    unfold fire at h
    cases hx : a.act sb ip e with
    | none =>
      rw [hx] at h
      cases h
    | some p =>
      rw [hx] at h
      obtain ⟨hp, ha⟩ := Option.ite_none_right_eq_some.mp h
      cases ha
      cases hp
      rfl
  cases e with
  | other => cases hact
  | call | go | ret => exact hact

/-- Thread 1 gets the lock between the steps of thread 0. -/
def twoWriters : List (WriteEvent × Shown) :=
  let none : ℕ → Option ℕ := fun _ => .none
  [(.call 0 (fun _ => 97) 2, {}), (.call 1 (fun j => UInt8.ofNat (48 + j)) 3, {}),
    (.go 1 none, { locks := [1] }),
    (.go 1 none, { chunks := [⟨1, 0, [48, 49, 50], some 3⟩] }), (.go 1 none, {}), (.go 1 none, {}),
    (.go 0 none, { locks := [0] }), (.ret 1, { rets := [(3, 3)] }),
    (.go 0 none, { chunks := [⟨0, 3, [97, 97], some 2⟩] }), (.go 0 none, {}), (.go 0 none, {}),
    (.ret 0, { rets := [(2, 2)] })]

theorem twoWriters_succeed : ∀ l ∈ twoWriters, Succeeds l := by
  intro l hl
  constructor
  · rintro t copy he
    simp only [twoWriters, mem_cons, not_mem_nil, or_false] at hl
    rcases hl with rfl | rfl | rfl | rfl | rfl | rfl | rfl | rfl | rfl | rfl | rfl | rfl <;>
      cases he <;> exact fun _ => rfl
  · revert l
    decide

theorem shared_offset_loses_nothing_two : ∃ st a, WfOn (fun _ => True) rootSuper none st ∧
    Run (Where (fun _ l => Succeeds l) (Shared.Step (fun _ => True) rootSuper 1)) (.init st 0)
      twoWriters a ∧
    stream 0 (chunks twoWriters) = asked 0 twoWriters := by
  obtain ⟨st, hst, hP⟩ := exec_any (Op.step rootSuper) rootDisk (createOps ++ [.iunlock 1])
    (fun st => decide (st.Valid 1) &&
      (exec (Shared.fire rootSuper 1) (.init st 0) twoWriters).any fun a => (a.call 0).isNone)
        (by decide +kernel)
  obtain ⟨hv, ha⟩ := Bool.and_eq_true_iff.mp hP
  obtain ⟨a, ha, h0⟩ := exec_any _ _ _ _ ha
  have hw : Wf rootSuper none st :=
    (run_of_exec hst).inv_state rootDisk_mounted.wf fun _ _ _ h hs => Op.step_wf h hs
  have hrun : Run (Where (fun _ l => Succeeds l) (Shared.Step (fun _ => True) rootSuper 1))
      (.init st 0) twoWriters a :=
    ((run_of_exec ha).mono fun _ _ _ hs => Shared.step_of_fire hs).where_of_forall
      twoWriters_succeed
  have h := shared_offset_loses_nothing hw (of_decide_eq_true hv) trivial hrun
  exact ⟨st, a, hw, hrun, h.2.2.2.2.2.1 0 (Option.isNone_iff_eq_none.mp h0)⟩

end Xv6.Fs
