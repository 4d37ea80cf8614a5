/-
  Files are byte arrays.

  `ByteCall` is a call of `writei`, `readi` or `itrunc` with a kernel buffer, on an inode that has
  been read into the inode table. `ByteCall.spec` says what the call does to a list of bytes. A file
  system of byte arrays (`ByteArrays`) has such a list for every inode and changes one of them with
  a call; the code refines it as long as the disk has the blocks that the calls need
  (`files_are_byte_arrays`). Inodes outside `H` may have holes; their bytes stay as well.
-/
import Xv6.Fs.Room
import Xv6.Fs.Blocks

namespace Xv6.Fs

open Lib Act Function

/-! ## Byte arrays -/

inductive ByteCall where
  | writei (ip : Ptr) (src : ℕ → UInt8) (off n : UInt32)
  | readi (ip : Ptr) (off n : UInt32)
  | itrunc (ip : Ptr)

/-- What a call returns: a count or -1, the bytes that were copied out, or nothing. -/
inductive ByteRes where
  | count (n : Option ℕ)
  | bytes (l : Option (List UInt8))
  | done
  deriving DecidableEq

def ByteCall.ip : ByteCall → Ptr
  | .writei ip _ _ _ | .readi ip _ _ | .itrunc ip => ip

/-- The result of a call on a file with bytes `l`, and the bytes after it. -/
def ByteCall.spec (l : List UInt8) : ByteCall → ByteRes × List UInt8
  | .writei _ src off n =>
    if InBounds l.length off.toNat n.toNat then
      (.count (some n.toNat),
        l.take off.toNat ++ (List.range n.toNat).map src ++ l.drop (off.toNat + n.toNat))
    else (.count none, l)
  | .readi _ off n =>
    if off.toNat ≤ l.length ∧ off.toNat + n.toNat < 2 ^ 32 then
      (.bytes (some ((l.drop off.toNat).take n.toNat)), l)
    else (.bytes (some []), l)
  | .itrunc _ => (.done, [])

/-- The bytes of every inode that is allocated. -/
abbrev Files := ℕ → Option (List UInt8)

/-- A file system of byte arrays; `num` gives the inode of a pointer. -/
def ByteArrays (num : Ptr → ℕ) (A : Files) (e : ByteCall × ByteRes) (A' : Files) : Prop :=
  ∃ l, A (num e.1.ip) = some l ∧ e.2 = (e.1.spec l).1 ∧
    A' = update A (num e.1.ip) (some (e.1.spec l).2)

/-! ## The code -/

def ByteCall.exec (sb : Super) : ByteCall → FsM ByteRes
  | .writei ip src off n => do
    let r ← Fs.writei sb ip src (fun _ => none) off.toNat n.toNat
    return .count r
  | .readi ip off n => do
    let r ← Fs.readi sb ip (fun _ => true) off.toNat n.toNat
    return .bytes r
  | .itrunc ip => do
    Fs.itrunc ip
    return .done

/-- A call that returns the given result. -/
def ByteCall.step (sb : Super) (s : Store) (e : ByteCall × ByteRes) : Option Store :=
  match e.1.exec sb s with
  | .ok (r, s') => if r = e.2 then some s' else none
  | .error _ => none

/-- The call is for an inode of `H` that has been read, and a write finds the blocks that it
    needs. -/
def ByteCall.Ready (sb : Super) (H : ℕ → Prop) (s : Store) (c : ByteCall) : Prop :=
  s.Valid c.ip ∧ H (s.inode c.ip).inum ∧
    match c with
    | .writei ip _ off n => InBounds (s.inode ip).d.size off.toNat n.toNat →
        s.lacks (s.inode ip).inum (slotsFor off.toNat n.toNat) ≤ s.free sb
    | _ => True

def Node.bytes (n : Node) : List UInt8 := (List.range n.size).map n.data

def Store.files (s : Store) : Files := fun i => (s.node i).map Node.bytes

/-! ## Bytes of a node -/

variable {H : ℕ → Prop} {sb : Super} {s s' : Store} {ip : Ptr}

theorem Node.bytes_length (n : Node) : n.bytes.length = n.size := by simp [bytes]

theorem Node.bytes_split (n : Node) {a : ℕ} (ha : a ≤ n.size) :
    n.bytes = (List.range a).map n.data ++ (List.range (n.size - a)).map fun j =>
      n.data (a + j) := by
  rw [range_map_add, Nat.add_sub_of_le ha]
  rfl

theorem Node.bytes_take (n : Node) {a : ℕ} (ha : a ≤ n.size) :
    n.bytes.take a = (List.range a).map n.data := by
  rw [n.bytes_split ha]
  exact List.take_left' (by simp)

theorem Node.bytes_drop (n : Node) (a : ℕ) :
    n.bytes.drop a = (List.range (n.size - a)).map fun j => n.data (a + j) := by
  by_cases ha : a ≤ n.size
  · rw [n.bytes_split ha]
    exact List.drop_left' (by simp)
  · have h0 : n.size - a = 0 := by omega
    rw [h0, List.drop_eq_nil_of_le (by rw [n.bytes_length]; omega)]
    rfl

/-- `writei` replaces bytes and may append some. -/
theorem Node.bytes_put (n : Node) {off c : ℕ} (src : ℕ → UInt8) (hoff : off ≤ n.size) :
    (n.put off c c src).bytes = n.bytes.take off ++ (List.range c).map src ++ n.bytes.drop
    (off + c) := by
  have hsize : (n.put off c c src).size = off + c + (n.size - (off + c)) := by
    show (if n.size < off + c then off + c else n.size) = _
    split <;> omega
  have hdata : ∀ o, (n.put off c c src).data o = overlay n.data off c src o := fun _ => rfl
  unfold bytes
  rw [hsize, ← range_map_add, ← range_map_add]
  change _ = n.bytes.take off ++ _ ++ n.bytes.drop (off + c)
  rw [n.bytes_take hoff, n.bytes_drop]
  congr 2
  · refine List.map_congr_left fun o ho => ?_
    rw [hdata, overlay, if_neg]
    have := List.mem_range.mp ho
    omega
  · refine List.map_congr_left fun o ho => ?_
    rw [hdata, overlay, if_pos, Nat.add_sub_cancel_left]
    have := List.mem_range.mp ho
    omega
  · funext o
    rw [hdata, overlay, if_neg]
    omega

/-- What `readi` copies out. -/
theorem Node.bytes_read (n : Node) {off m : ℕ} (hm : m < 2 ^ 32) :
    ((List.range (readLen n.size off m)).map fun j => n.data (off + j)) =
      if off ≤ n.size ∧ off + m < 2 ^ 32 then (n.bytes.drop off).take m else [] := by
  unfold readLen
  by_cases h : off ≤ n.size ∧ off + m < 2 ^ 32
  · rw [if_pos h, if_neg (by omega), n.bytes_drop, ← List.map_take, List.take_range]
    congr 2
    split <;> omega
  · rw [if_neg h]
    split
    · rfl
    · have h0 : (if n.size < off + m then n.size - off else m) = 0 := by
        split <;> omega
      rw [h0]
      rfl

/-! ## Calls -/

theorem files_of_valid (h : WfOn H sb none s) (hv : s.Valid ip) :
    ∃ n, s.node (s.inode ip).inum = some n ∧ n.size = (s.inode ip).d.size ∧
      n.data = s.byte (s.inode ip).inum ∧ s.files (s.inode ip).inum = some n.bytes := by
  have hn := node_of_valid h hv
  refine ⟨_, hn, rfl, rfl, ?_⟩
  unfold Store.files
  rw [hn]
  rfl

/-- The bytes after one node has changed. -/
theorem files_update {i : ℕ} {v : Option Node} (h : s'.node = update s.node i v) :
    s'.files = update s.files i (v.map Node.bytes) := by
  funext j
  unfold Store.files
  rw [h]
  by_cases hj : j = i
  · rw [hj, update_self, update_self]
  · rw [update_of_ne hj, update_of_ne hj]

/-- The result of a read, or of a call that fails. -/
def ByteRes.Silent : ByteRes → Prop
  | .count none | .bytes _ => True
  | _ => False

/-- A call does what it does to byte arrays; a read, or a call that fails, changes nothing at
    all. -/
theorem ByteCall.exec_spec (h : WfOn H sb none s) {c : ByteCall} (hc : c.Ready sb H s) :
    wp (c.exec sb) (fun r s' => WfOn H sb none s' ∧ SameTable s s' ∧
      ByteArrays (fun ip => (s.inode ip).inum) s.files (c, r) s'.files ∧ (r.Silent → s' = s))
      (fun _ => False) s := by
  obtain ⟨hv, hH, hroom⟩ := hc
  obtain ⟨n, hnode, hsize, hdata, hfiles⟩ := files_of_valid h hv
  have hlen : n.bytes.length = (s.inode c.ip).d.size := n.bytes_length.trans hsize
  cases c with
  | writei ip src off m =>
    refine wp_seq (writei_kernel h hv hH m.toNat_lt hroom (fun hb => ?_) fun hb s' hw ht hn => ?_)
    · have hspec : (ByteCall.writei ip src off m).spec n.bytes = (.count none, n.bytes) := by
        unfold ByteCall.spec
        rw [hlen]
        exact if_neg hb
      refine wp_pure.mpr ⟨h, .refl s, ⟨n.bytes, hfiles, ?_, ?_⟩, fun _ => rfl⟩
      · rw [hspec]
      · rw [hspec]
        exact (update_eq_self_iff.mpr hfiles.symm).symm
    · have hspec : (ByteCall.writei ip src off m).spec n.bytes =
          (.count (some m.toNat), (n.put off.toNat m.toNat m.toNat src).bytes) := by
        rw [n.bytes_put src (hsize ▸ hb.1)]
        unfold ByteCall.spec
        rw [hlen]
        exact if_pos hb
      refine wp_pure.mpr ⟨hw, ht, ⟨n.bytes, hfiles, ?_, ?_⟩, fun hs => hs.elim⟩
      · rw [hspec]
      · rw [hspec, files_update hn, hnode]
        rfl
  | readi ip off m =>
    refine wp_seq (readi_spec h hv hH fun r hnone hsome => ?_)
    cases r with
    | none =>
      obtain ⟨t, ht⟩ := hnone rfl
      cases ht
    | some l =>
      have hl := hsome l rfl
      rw [← hsize, ← hdata, n.bytes_read m.toNat_lt] at hl
      have hspec : (ByteCall.readi ip off m).spec n.bytes = (.bytes (some l), n.bytes) := by
        rw [hl]
        split
        · exact if_pos (by rwa [n.bytes_length])
        · exact if_neg (by rwa [n.bytes_length])
      refine wp_pure.mpr ⟨h, .refl s, ⟨n.bytes, hfiles, ?_, ?_⟩, fun _ => rfl⟩
      · rw [hspec]
      · rw [hspec]
        exact (update_eq_self_iff.mpr hfiles.symm).symm
  | itrunc ip =>
    refine wp_seq (itrunc_spec h hv (.inl rfl) fun s' hw ht _ _ _ _ _ hn => ?_)
    refine wp_pure.mpr ⟨hw, ht, ⟨n.bytes, hfiles, rfl, ?_⟩, fun hs => hs.elim⟩
    rw [files_update hn, hnode]
    rfl

theorem num_eq (h : SameTable s s') : (fun ip => (s'.inode ip).inum) = fun ip =>
    (s.inode ip).inum :=
  funext fun ip => (h ip).1

/-- **Files are byte arrays.** Let the state be well formed and the inodes of `H` be without holes.
Any sequence of `writei`, `readi` and `itrunc` with kernel buffers on those inodes, each of them
with the blocks that it needs, does to the bytes of the files what it does to byte arrays, and
leaves a state without holes. Every further call returns; a read, or a call that fails, changes
nothing. -/
theorem files_are_byte_arrays {s₀ : Store} (h₀ : WfOn H sb none s₀) {tr : List (ByteCall × ByteRes)}
    (hrun : Run (Where (fun s e => e.1.Ready sb H s) (Fires (ByteCall.step sb))) s₀ tr s) :
    Run (ByteArrays fun ip => (s₀.inode ip).inum) s₀.files tr s.files ∧ WfOn H sb none s ∧
      ∀ c : ByteCall, c.Ready sb H s → ∃ r s', c.exec sb s = .ok (r, s') ∧
        ByteArrays (fun ip => (s₀.inode ip).inum) s.files (c, r) s'.files ∧
        (r.Silent → s' = s) := by
  have hinv : Run (ByteArrays fun ip => (s₀.inode ip).inum) s₀.files tr s.files ∧ WfOn H sb none s ∧
      SameTable s₀ s := by
    refine hrun.inv
      (I := fun tr s => Run (ByteArrays fun ip => (s₀.inode ip).inum) s₀.files tr s.files ∧
      WfOn H sb none s ∧ SameTable s₀ s) ⟨.nil, h₀, .refl s₀⟩ ?_
    rintro tr s ⟨c, r⟩ s' ⟨hr, hw, ht⟩ ⟨hready, hs⟩
    obtain ⟨r', s1, hex, hw', ht', hb, -⟩ := wp_returns (ByteCall.exec_spec hw hready)
    unfold Fires ByteCall.step at hs
    rw [hex] at hs
    dsimp only at hs
    obtain ⟨rfl, hs1⟩ := Option.ite_none_right_eq_some.mp hs
    cases hs1
    rw [num_eq ht] at hb
    exact ⟨hr.snoc hb, hw', ht.trans ht'⟩
  obtain ⟨hr, hw, ht⟩ := hinv
  refine ⟨hr, hw, fun c hready => ?_⟩
  obtain ⟨r, s', hex, -, -, hb, hq⟩ := wp_returns (ByteCall.exec_spec hw hready)
  rw [num_eq ht] at hb
  exact ⟨r, s', hex, hb, hq⟩

instance (s : Store) (c : ByteCall) : Decidable (c.Ready sb (fun _ => True) s) :=
  match c with
  | .writei .. => inferInstanceAs (Decidable (_ ∧ True ∧ (_ → _ ≤ _)))
  | .readi .. => inferInstanceAs (Decidable (_ ∧ True ∧ True))
  | .itrunc _ => inferInstanceAs (Decidable (_ ∧ True ∧ True))

/-- A file is created in the root directory of the small disk. -/
def createOps : List Op := [.iget 1, .create 0 [102] .file 0 0]

/-- Three bytes are written, one of them is overwritten, and the rest is read back. -/
def smallCalls : List (ByteCall × ByteRes) :=
  [(.writei 1 (fun j => UInt8.ofNat (97 + j)) 0 3, .count (some 3)),
    (.writei 1 (fun _ => 122) 2 1, .count (some 1)), (.readi 1 1 9, .bytes (some [98, 122])),
    (.writei 1 (fun _ => 0) 4 1, .count none), (.itrunc 1, .done), (.readi 1 0 4, .bytes (some []))]

theorem files_are_byte_arrays_small : ∃ s₀ s, WfOn (fun _ => True) rootSuper none s₀ ∧
    Run (Where (fun s e => e.1.Ready rootSuper (fun _ => True) s) (Fires (ByteCall.step rootSuper)))
      s₀
      smallCalls s ∧
    Run (ByteArrays fun ip => (s₀.inode ip).inum) s₀.files smallCalls s.files := by
  obtain ⟨s₀, hs0, hP⟩ := exec_any (Op.step rootSuper) rootDisk createOps
    (fun s₀ => (exec
      (guarded (fun s (e : ByteCall × ByteRes) => e.1.Ready rootSuper (fun _ => True) s)
      (ByteCall.step rootSuper)) s₀ smallCalls).isSome) (by decide +kernel)
  obtain ⟨s, hs⟩ := Option.isSome_iff_exists.mp hP
  have hw : Wf rootSuper none s₀ :=
    (run_of_exec hs0).inv_state rootDisk_mounted.wf fun _ _ _ h hs => Op.step_wf h hs
  exact ⟨s₀, s, hw, run_where_of_exec hs, (files_are_byte_arrays hw (run_where_of_exec hs)).1⟩

end Xv6.Fs
